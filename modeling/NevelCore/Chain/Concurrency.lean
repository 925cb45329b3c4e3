import NevelCore.Chain.ForkChoice
import NevelCore.Foundations.Interleaving

/-!
# Two calls at the same time

`ValidateAndApplyBlock` takes no lock: it reads the store step by step, and applies the block in a
later step. `bothOnTip_not_serial` is what can go wrong: two blocks on the same tip are both
applied.

`Guarded` is a condition on the single steps. A block is applied only when it is still unknown and
its parent is still the tip, and the work of a stored block is not read before it is recorded. Under
this condition every interleaving of two calls ends with the tip and the ledger of one call after
the other (`interleaving_serialisable`). The phases of the proof are the blocks applied so far
(`Stage`), and a call may have seen several of them: a block that passes checks made in different
phases can be applied only in the phase in which its parent was found (`Checked.joins`).
-/

set_option autoImplicit false
set_option relaxedAutoImplicit false

namespace NevelCore

open Foundations

/-- The steps that keep to the order of one call after the other: a block is applied if it is
unknown and its parent is the tip, and the work of a stored block is read if it is on record. -/
def Guarded : Call → Node → Prop
  | .applyBlock b, n => DB.tip n.store = .ok b.header.prevHash ∧
      ∃ e, DB.getBlock n.store b.hash = .error e
  | .totalWork hash, n => ∀ x : Block, x.hash = hash →
      n.store.lookup (Key.blockHash hash) = some (serializeBlock x) →
      DB.totalWork n.store hash = .ok (DB.workOn n.store x)
  | _, _ => True

/-- A block that is new and valid on top of a chain. -/
structure Joins (m : Manager) (now : ℤ) (b p : Block) (rest : List Block) : Prop
    extends ValidOn m now b p rest where
  inLimits : p.InLimits
  unknown : ∀ x ∈ p :: rest, x.hash ≠ b.hash

/-- The writes of `ValidateAndApplyBlock` for a block on top of the tip. -/
def applyOnTip (b : Block) (work : ℕ) : Routine Unit := do
  attempt (← Store.applyBlock b)
  attempt (← Store.putTotalWork b.hash work)
  Mempool.removeMined b

theorem run_applyOnTip (b : Block) (work : ℕ) (n : Node) :
    (applyOnTip b work).run exec n = (.ok (), Node.mined
      { n with store := DB.putTotalWork (DB.applyBlock n.store b) b.hash work } b) := rfl

/-- The state after two calls, one after the other. -/
def inSequence (m : Manager) (now now' : ℤ) (fuel fuel' : ℕ) (b b' : Block) (n : Node) : Node :=
  ((m.validateAndApplyBlock now' fuel' b').run exec
    ((m.validateAndApplyBlock now fuel b).run exec n).2).2

/-! ### One call on a chain -/

section Calls

variable {m : Manager} {g b p : Block} {rest : List Block} {n : Node} {now : ℤ}

/-- A new block is not in a store that has the chain. -/
theorem Joins.getBlock_eq_error (h : Joins m now b p rest) (hstores : Stores (p :: rest) n.store) :
    ∃ e, DB.getBlock n.store b.hash = .error e := by
  cases hget : DB.getBlock n.store b.hash with
  | error e => exact ⟨e, rfl⟩
  | ok x =>
    obtain ⟨hx, hhash, -⟩ := hstores.mem_of_getBlock hget
    exact absurd hhash (h.unknown x hx)

theorem Joins.extends (h : Joins m now b p rest) (hchain : Chain m g (p :: rest))
    (hg : g.header.height = 0) (hstores : Stores (p :: rest) n.store) : Extends m b p rest := by
  obtain ⟨e, hunknown⟩ := h.getBlock_eq_error hstores
  exact (h.toValidOn.passes hchain hg hstores h.inLimits hunknown).2

/-- A call with a block that joins the chain extends it. -/
theorem Joins.call (h : Joins m now b p rest) (hchain : Chain m g (p :: rest))
    (hg : g.header.height = 0) (hholds : Holds (p :: rest) n.store) (fuel : ℕ) :
    Chain m g (b :: p :: rest) ∧
      Holds (b :: p :: rest) ((m.validateAndApplyBlock now fuel b).run exec n).2.store := by
  obtain ⟨e, hunknown⟩ := h.getBlock_eq_error hholds.toStores
  obtain ⟨hcheck, hstep⟩ := h.toValidOn.passes hchain hg hholds.toStores h.inLimits hunknown
  have htip : DB.tip n.store = .ok b.header.prevHash := by rw [hholds.tip rfl, h.link]
  obtain ⟨n', hcall, hstore, -⟩ := run_validateAndApplyBlock_of_tip fuel hcheck htip
  rw [hcall, hstore]
  exact ⟨hchain.extend hstep, hholds.extend hchain hg hstep⟩

/-- A block of positive height that passes the checks on top of the tip joins the chain. -/
theorem Passes.joins (h : Passes m now b p n) (hheight : 0 < b.header.height)
    (hchain : Chain m g (p :: rest)) (hg : g.header.height = 0)
    (hstores : Stores (p :: rest) n.store) : Joins m now b p rest := by
  obtain ⟨rest', hsuffix, hlimits, -, -, hbits, hextends⟩ := h.parent hheight hchain hg hstores
  have hsame := (hchain.branch hg).suffix_inj hsuffix (List.suffix_refl _) rfl
  obtain rfl : rest' = rest := (List.cons.inj hsame).2
  refine ⟨⟨hheight, h.header, hbits, fun n' hledger ↦ ?_⟩, hlimits, (hextends rfl).unknown⟩
  have hresult := @run_validateBlockTransactions_congr n' n m.verifier b
    (hledger.trans hstores.ledger.symm)
  rw [h.transactions] at hresult
  rw [run_of_reads (Prog.only_mono Call.Gets.reads (only_validateBlockTransactions b)), hresult]

/-- A call with a block that does not join the chain keeps it. -/
theorem call_of_not_joins (h : ¬ Joins m now b p rest) (hheight : 0 < b.header.height)
    (hchain : Chain m g (p :: rest)) (hg : g.header.height = 0) (hholds : Holds (p :: rest) n.store)
    (fuel : ℕ) : Holds (p :: rest) ((m.validateAndApplyBlock now fuel b).run exec n).2.store := by
  obtain ⟨⟨r, n'⟩, hcall⟩ :
      ∃ result, (m.validateAndApplyBlock now fuel b).run exec n = result := ⟨_, rfl⟩
  rw [hcall]
  rcases validateAndApplyBlock_cases hcall with ⟨e, -, -, rfl⟩ | ⟨hcheck, -⟩
  · exact hholds
  obtain ⟨prev, hpasses⟩ := (checkBlock_ok_iff hheight).mp hcheck
  obtain ⟨chain', houtcome⟩ := call_outcome hcall hheight hchain hg hholds
  obtain ⟨-, hholds'⟩ := houtcome.holds hchain hg hholds
  change Holds (p :: rest) n'.store
  generalize n'.store = d' at houtcome hholds' ⊢
  cases houtcome with
  | unchanged => exact hholds'
  | recorded _ _ _ _ => exact hholds'
  | extended eq step =>
    obtain ⟨rfl, rfl⟩ := List.cons.inj eq
    obtain ⟨hmem, hhash, -⟩ := hholds.toStores.mem_of_getBlock hpasses.previous
    have hprev : prev = p :=
      hchain.hash_inj hmem List.mem_cons_self (hhash.trans step.link)
    subst hprev
    exact absurd (hpasses.joins hheight hchain hg hholds.toStores) h

/-- Of two blocks that both join a chain, the second one is then below the tip. -/
theorem Joins.inSequence {b' : Block} {now' : ℤ} (h : Joins m now b p rest)
    (h' : Joins m now' b' p rest) (hchain : Chain m g (p :: rest)) (hg : g.header.height = 0)
    (hholds : Holds (p :: rest) n.store) (fuel fuel' : ℕ) :
    Holds (b :: p :: rest) (inSequence m now now' fuel fuel' b b' n).store := by
  obtain ⟨hchain', hfirst⟩ := h.call hchain hg hholds fuel
  have hbelow : ¬ Joins m now' b' b (p :: rest) := fun hjoins ↦
    h.unknown p List.mem_cons_self (h'.link.symm.trans hjoins.link)
  exact call_of_not_joins hbelow h'.height hchain' hg hfirst fuel'

end Calls

/-! ### Stages -/

/-- Which of the two blocks have been applied: none, one of them, or both, one before the other. -/
inductive Stage where
  | none
  | one (side : Side)
  | both (first : Side)

namespace Stage

/-- How a side may move the stage: it applies its block, once. -/
inductive Moves (side : Side) : Stage → Stage → Prop
  | stay (φ : Stage) : Moves side φ φ
  | first : Moves side none (one side)
  | second : Moves side (one side.other) (both side.other)

variable {side : Side} {φ ψ χ : Stage}

theorem Moves.trans (h : Moves side φ ψ) (h' : Moves side ψ χ) : Moves side φ χ := by
  cases h with
  | stay => exact h'
  | first =>
    cases side <;> cases h' <;> exact .first
  | second =>
    cases h'
    exact .second

theorem Moves.eq_none (h : Moves side φ ψ) (hψ : ψ = none) : φ = none := by
  cases h with
  | stay => exact hψ
  | first => cases hψ
  | second => cases hψ

/-- The chain of a stage, over the chain before. -/
def chain (blk : Side → Block) (before : List Block) : Stage → List Block
  | none => before
  | one side => blk side :: before
  | both first => blk first.other :: blk first :: before

variable {blk : Side → Block} {before : List Block}

theorem Moves.suffix (h : Moves side φ ψ) : φ.chain blk before <:+ ψ.chain blk before := by
  cases h with
  | stay => exact List.suffix_refl _
  | first => exact List.suffix_cons _ _
  | second => exact List.suffix_cons _ _

/-- A move that does not make the chain longer is none. -/
theorem Moves.eq_of_suffix (h : Moves side φ ψ)
    (hsuffix : ψ.chain blk before <:+ φ.chain blk before) : ψ = φ := by
  have hlength := hsuffix.length_le
  cases h with
  | stay => rfl
  | first => exact absurd hlength (by simp [chain])
  | second => exact absurd hlength (by simp [chain])

theorem Moves.antisymm (h : Moves side φ ψ) (h' : Moves side ψ φ) : ψ = φ := by
  cases h with
  | stay => rfl
  | first => cases side <;> cases h'
  | second => cases h'

/-- While a side has not moved, the blocks below the tip are of the chain before. -/
theorem Moves.tail_suffix (h : Moves side none φ) {hd : Block} {r : List Block}
    (hchain : φ.chain blk before = hd :: r) : r <:+ before := by
  cases h with
  | stay =>
    rw [show before = hd :: r from hchain]
    exact List.suffix_cons _ _
  | first => exact (List.cons.inj hchain).2 ▸ List.suffix_refl _

/-- The chain before is below every stage. -/
theorem suffix_chain (φ : Stage) : before <:+ φ.chain blk before := by
  cases φ with
  | none => exact List.suffix_refl _
  | one side => exact List.suffix_cons _ _
  | both first => exact (List.suffix_cons _ _).trans (List.suffix_cons _ _)

end Stage

/-! ### The protocol of two calls -/

section Protocol

variable (m : Manager) (g t : Block) (below : List Block) (now : Side → ℤ) (blk : Side → Block)

/-- Every block applied so far has joined the chain before it. -/
def Stage.Legal : Stage → Prop
  | none => True
  | one side => Joins m (now side) (blk side) t below
  | both first => Joins m (now first) (blk first) t below ∧
      Joins m (now first.other) (blk first.other) (blk first) (t :: below)

/-- What holds of the state in a stage. The work of the blocks applied since may be missing. -/
structure Stage.At (φ : Stage) (n : Node) : Prop where
  legal : φ.Legal m t below now blk
  rules : Chain m g (φ.chain blk (t :: below))
  stores : Stores (φ.chain blk (t :: below)) n.store
  work : ∀ {x rest}, x :: rest <:+ t :: below → x.InLimits →
    DB.totalWork n.store x.hash = .ok (chainWork (x :: rest))

/-- Two calls of `ValidateAndApplyBlock` with guarded steps. -/
def submissions : Protocol calls Node Stage where
  exec := exec
  allowed := Guarded
  holds := Stage.At m g t below now blk
  moves := Stage.Moves
  stays _ φ := .stay φ
  trans _ _ _ _ h h' := h.trans h'

end Protocol

/-! ### The checks -/

section Conforms

variable {m : Manager} {g t : Block} {below : List Block} {now : Side → ℤ} {blk : Side → Block}
  {side : Side} {φ ψ : Stage}

/-- The header of an ancestor is the same in every later stage. -/
theorem conforms_headerByHeight (hg : g.header.height = 0)
    (hchain : Chain m g (ψ.chain blk (t :: below))) {p : Block} {rest : List Block}
    (hsuffix : p :: rest <:+ ψ.chain blk (t :: below)) (hlimits : p.InLimits) {height : UInt64}
    (hle : height ≤ p.header.height) :
    ∃ header, ancestorHeader (p :: rest) height = pure header ∧
      (submissions m g t below now blk).Conforms side
        (fun φ r ↦ ψ.Moves side.other φ ∧ r = .ok header) (Manager.headerByHeight height) ψ := by
  obtain ⟨x, hx, hlimits', hheight, hancestor⟩ :=
    (hchain.of_suffix hsuffix).exists_ancestor hg hlimits hle
  refine ⟨x.header, hancestor, ?_⟩
  unfold Manager.headerByHeight
  refine Protocol.conforms_read (fun _ ↦ rfl) fun φ s hφ hs _ ↦ ?_
  have hmem : x ∈ φ.chain blk (t :: below) := (hsuffix.trans hφ.suffix).subset hx
  have hindex : DB.blockHashByHeight s.store height = .ok x.hash := hheight ▸ hs.stores.index x hmem
  change Protocol.Conforms _ _ _ (attempt (DB.blockHashByHeight s.store height) >>= _) φ
  rw [hindex, attempt_ok, Prog.pure_bind]
  refine Protocol.conforms_read (fun _ ↦ rfl) fun χ s hχ hs _ ↦ ?_
  have hget := hs.stores.getBlock_of_mem (hχ.suffix.subset hmem) hlimits'
  change Protocol.Conforms _ _ _ (attempt (DB.getBlock s.store x.hash) >>= _) χ
  rw [hget]
  exact ⟨hφ.trans hχ, rfl⟩

/-- The bits that a block asks of its child are the same in every later stage. -/
theorem conforms_expectedBits (hg : g.header.height = 0)
    (hchain : Chain m g (ψ.chain blk (t :: below))) {p : Block} {rest : List Block}
    (hsuffix : p :: rest <:+ ψ.chain blk (t :: below)) (hlimits : p.InLimits) (net : Network) :
    (submissions m g t below now blk).Conforms side
      (fun φ r ↦ ψ.Moves side.other φ ∧
        ∀ n, (expectedBits p.header net (ancestorHeader (p :: rest))).run exec n = (r, n))
      (expectedBits p.header net Manager.headerByHeight) ψ := by
  unfold expectedBits
  dsimp only
  split
  · exact ⟨.stay ψ, fun _ ↦ rfl⟩
  · next hretarget =>
    obtain ⟨header, hancestor, hconforms⟩ :=
      conforms_headerByHeight hg hchain hsuffix hlimits (retarget_height_le hretarget)
    refine hconforms.bind (fun φ first hpost ↦ ?_) fun φ e hpost ↦ nomatch hpost.2
    obtain ⟨hφ, hfirst⟩ := hpost
    refine ⟨hφ, fun n ↦ ?_⟩
    rw [hancestor, Except.ok.inj hfirst]
    rfl

/-- What is known of the block of a side when its checks have passed: it was new, and its parent
`p` was found in stage `ψ`. The transactions were checked against the ledger of that stage if the
stage is still the same. -/
structure Checked (m : Manager) (t : Block) (below : List Block) (now : Side → ℤ)
    (blk : Side → Block) (side : Side) (φ ψ : Stage) (p : Block) (rest : List Block) : Prop where
  early : Stage.none.Moves side.other ψ
  later : ψ.Moves side.other φ
  new : ∀ x ∈ t :: below, x.InLimits → x.hash ≠ (blk side).hash
  suffix : p :: rest <:+ ψ.chain blk (t :: below)
  inLimits : p.InLimits
  header : validateBlockHeader (now side) (blk side) (some p.header) m.network = .ok ()
  bits : ∀ n, (expectedBits p.header m.network (ancestorHeader (p :: rest))).run exec n =
    (.ok (blk side).header.bits, n)
  transactions : φ = ψ → ∀ n, DB.utxos n.store = Ledger.replay (ψ.chain blk (t :: below)) →
    (validateBlockTransactions (blk side) Store.get m.verifier).run exec n = (.ok (), n)

/-- The end of the checks of a side: they have passed, or the block did not join the chain before,
unless the other block has been applied. -/
def AfterChecks (m : Manager) (t : Block) (below : List Block) (now : Side → ℤ)
    (blk : Side → Block) (side : Side) (φ : Stage) : Except Halt Unit → Prop
  | .ok _ => ∃ ψ p rest, Checked m t below now blk side φ ψ p rest
  | .error _ => φ = .none → ¬ Joins m (now side) (blk side) t below

/-- The parent that a block of positive height is checked against. -/
theorem conforms_previousHeader (hheight : 0 < (blk side).header.height)
    (hφ : Stage.none.Moves side.other φ) :
    (submissions m g t below now blk).Conforms side
      (fun ψ r ↦ match r with
        | .ok prev => ∃ p rest, prev = some p.header ∧ Stage.none.Moves side.other ψ ∧
            φ.Moves side.other ψ ∧ Chain m g (ψ.chain blk (t :: below)) ∧
            p :: rest <:+ ψ.chain blk (t :: below) ∧ p.InLimits ∧
            p.hash = (blk side).header.prevHash
        | .error _ => ψ = .none → ¬ Joins m (now side) (blk side) t below)
      (Manager.previousHeader (blk side)) φ := by
  unfold Manager.previousHeader
  rw [if_pos hheight]
  refine Protocol.conforms_read (fun _ ↦ rfl) fun ψ s hψ hs _ ↦ ?_
  dsimp only [submissions, exec]
  cases hget : DB.getBlock s.store (blk side).header.prevHash with
  | error e =>
    intro hnone hjoins
    subst hnone
    rw [hjoins.link, hs.stores.getBlock_of_mem List.mem_cons_self hjoins.inLimits] at hget
    cases hget
  | ok p =>
    obtain ⟨hmem, hhash, hlimits⟩ := hs.stores.mem_of_getBlock hget
    obtain ⟨rest, hsuffix⟩ := exists_suffix_of_mem hmem
    exact ⟨p, rest, rfl, hφ.trans hψ, hψ, hs.rules, hsuffix, hlimits, hhash⟩

/-- A block that joins the chain before has the tip of that chain as its parent. -/
theorem Joins.parent_eq {b p : Block} {rest : List Block} {clock : ℤ}
    (h : Joins m clock b t below) (hchain : Chain m g (t :: below)) (hg : g.header.height = 0)
    (hsuffix : p :: rest <:+ t :: below) (hhash : p.hash = b.header.prevHash) :
    p = t ∧ rest = below := by
  have hp : p = t := hchain.hash_inj (hsuffix.subset List.mem_cons_self) List.mem_cons_self
    (hhash.trans h.link)
  subst hp
  exact ⟨rfl, (List.cons.inj ((hchain.branch hg).suffix_inj hsuffix (List.suffix_refl _) rfl)).2⟩

theorem conforms_validateBlockHeader (hg : g.header.height = 0)
    (hchain : Chain m g (ψ.chain blk (t :: below))) {p : Block} {rest : List Block}
    (hsuffix : p :: rest <:+ ψ.chain blk (t :: below)) (hlimits : p.InLimits)
    (hhash : p.hash = (blk side).header.prevHash) :
    (submissions m g t below now blk).Conforms side
      (fun φ r ↦ match r with
        | .ok _ => ψ.Moves side.other φ ∧
            validateBlockHeader (now side) (blk side) (some p.header) m.network = .ok () ∧
            ∀ n, (expectedBits p.header m.network (ancestorHeader (p :: rest))).run exec n =
              (.ok (blk side).header.bits, n)
        | .error _ => φ = .none → ¬ Joins m (now side) (blk side) t below)
      (validateBlockHeaderWithDifficulty (now side) (blk side) (some p.header) m.network
        Manager.headerByHeight) ψ := by
  unfold validateBlockHeaderWithDifficulty
  cases hheader : validateBlockHeader (now side) (blk side) (some p.header) m.network with
  | error e =>
    intro hnone hjoins
    subst hnone
    obtain ⟨rfl, rfl⟩ := hjoins.parent_eq hchain hg hsuffix hhash
    rw [hjoins.header] at hheader
    cases hheader
  | ok _ =>
    rw [attempt_ok, Prog.pure_bind]
    refine (conforms_expectedBits hg hchain hsuffix hlimits m.network).bind
      (fun φ expected hpost ↦ ?_) fun φ e hpost hnone hjoins ↦ ?_
    · obtain ⟨hmoves, hrun⟩ := hpost
      split
      · next hbits =>
        intro hnone hjoins
        obtain rfl := hmoves.eq_none hnone
        obtain ⟨rfl, rfl⟩ := hjoins.parent_eq hchain hg hsuffix hhash
        have hsame := (hjoins.bits ⟨∅, none⟩).symm.trans (hrun ⟨∅, none⟩)
        exact hbits (Except.ok.inj (Prod.ext_iff.mp hsame).1)
      · next hbits =>
        rw [not_not] at hbits
        rw [hbits]
        exact ⟨hmoves, rfl, hrun⟩
    · obtain ⟨hmoves, hrun⟩ := hpost
      obtain rfl := hmoves.eq_none hnone
      obtain ⟨rfl, rfl⟩ := hjoins.parent_eq hchain hg hsuffix hhash
      exact nomatch (hjoins.bits ⟨∅, none⟩).symm.trans (hrun ⟨∅, none⟩)

/-- The transaction rules read the ledger of the stage they start in, if it is still the same at the
end. -/
theorem conforms_validateBlockTransactions :
    (submissions m g t below now blk).Conforms side
      (fun χ r ↦ φ.Moves side.other χ ∧ (χ = φ → ∀ n,
        DB.utxos n.store = Ledger.replay (φ.chain blk (t :: below)) →
        (validateBlockTransactions (blk side) Store.get m.verifier).run exec n = (r, n)))
      (validateBlockTransactions (blk side) Store.get m.verifier) φ := by
  have honly : (validateBlockTransactions (blk side) Store.get m.verifier).Only Call.Gets
      Halt.Raised := only_validateBlockTransactions (blk side)
  have hkind : ∀ c : Call, c.Gets → ∀ n, (exec c n).2 = n := fun c hc ↦
    exec_of_reads c (Call.Gets.reads c hc)
  have hreads : (submissions m g t below now blk).Conforms side
      (fun χ r ↦ φ.Moves side.other χ ∧ (χ = φ → ∀ n : Node,
        DB.utxos n.store = Ledger.replay (φ.chain blk (t :: below)) →
        r = ((validateBlockTransactions (blk side) Store.get m.verifier).run exec n).1))
      (validateBlockTransactions (blk side) Store.get m.verifier) φ := by
    refine Protocol.conforms_of_only hkind (fun χ h h' ↦ Stage.Moves.antisymm h h')
      (fun s s' hs hs' c hc ↦ ?_) honly
    cases c with
    | get hash idx =>
      change DB.get s.store hash idx = DB.get s'.store hash idx
      rw [DB.get, DB.get, ← DB.lookup_utxos, ← DB.lookup_utxos, hs.stores.ledger, hs']
    | _ => exact hc.elim
  refine hreads.mono fun χ r hpost ↦ ⟨hpost.1, fun hχ n hn ↦ ?_⟩
  rw [Prog.run_of_only hkind honly, hpost.2 hχ n hn]

/-- The transaction rules, after a header that has found its parent in stage `ψ`. -/
theorem conforms_transactions {n₀ : Node} (hledger : DB.utxos n₀.store = Ledger.replay (t :: below))
    (hψ : Stage.none.Moves side.other ψ) (hφ : ψ.Moves side.other φ) {post : Stage → Prop}
    (hpost : ∀ χ, ψ.Moves side.other χ → (χ = ψ → ∀ n,
      DB.utxos n.store = Ledger.replay (ψ.chain blk (t :: below)) →
      (validateBlockTransactions (blk side) Store.get m.verifier).run exec n = (.ok (), n)) →
      post χ) :
    (submissions m g t below now blk).Conforms side
      (fun χ r ↦ match r with
        | .ok _ => post χ
        | .error _ => χ = .none → ¬ Joins m (now side) (blk side) t below)
      (validateBlockTransactions (blk side) Store.get m.verifier) φ := by
  refine conforms_validateBlockTransactions.mono fun χ r hχ ↦ ?_
  obtain ⟨hmoves, hrun⟩ := hχ
  cases r with
  | ok _ =>
    refine hpost χ (hφ.trans hmoves) fun hsame n hn ↦ ?_
    subst hsame
    obtain rfl := hφ.antisymm hmoves
    exact hrun rfl n hn
  | error e =>
    intro hnone hjoins
    subst hnone
    obtain rfl := (hψ.trans hφ).antisymm hmoves
    have hsame := (hjoins.transactions n₀ hledger).symm.trans (hrun rfl n₀ hledger)
    cases hsame

/-- The checks of a call that has started before either block is applied. -/
theorem conforms_checkBlock {n₀ : Node} (hledger : DB.utxos n₀.store = Ledger.replay (t :: below))
    (hg : g.header.height = 0) (hheight : 0 < (blk side).header.height) :
    (submissions m g t below now blk).Conforms side (AfterChecks m t below now blk side)
      (m.checkBlock (now side) (blk side)) .none := by
  unfold Manager.checkBlock
  refine Protocol.conforms_read (fun _ ↦ rfl) fun χ s hχ hs _ ↦ ?_
  dsimp only [submissions, exec]
  cases hget : DB.getBlock s.store (blk side).hash with
  | ok known =>
    intro hnone hjoins
    subst hnone
    obtain ⟨hmem, hhash, -⟩ := hs.stores.mem_of_getBlock hget
    exact hjoins.unknown known hmem hhash
  | error e =>
    have hnew : ∀ x ∈ t :: below, x.InLimits → x.hash ≠ (blk side).hash := fun x hx hlimits ↦
      hs.stores.hash_ne_of_unknown hget (χ.suffix_chain.subset hx) hlimits
    refine (conforms_previousHeader hheight hχ).bind (fun ψ prev hprev ↦ ?_)
      fun ψ e hpost ↦ hpost
    obtain ⟨p, rest, rfl, hearly, -, hchain, hsuffix, hlimits, hhash⟩ := hprev
    refine (conforms_validateBlockHeader hg hchain hsuffix hlimits hhash).bind
      (fun φ _ hheader ↦ ?_) fun φ e hpost ↦ hpost
    obtain ⟨hmoves, hheader, hbits⟩ := hheader
    exact conforms_transactions hledger hearly hmoves fun φ' hlater htxs ↦
      ⟨ψ, p, rest, hearly, hlater, hnew, hsuffix, hlimits, hheader, hbits, htxs⟩

/-! ### What follows the checks -/

theorem Checked.link {p : Block} {rest : List Block}
    (h : Checked m t below now blk side φ ψ p rest) : (blk side).header.prevHash = p.hash :=
  ((validateBlockHeader_ok_iff.mp h.header).2.2.2 p.header rfl).2

/-- A block that has passed the checks and may be applied joins the chain as it is now: the stage
has not changed since its parent was found. -/
theorem Checked.joins {p : Block} {rest : List Block} {χ : Stage} {n : Node}
    (h : Checked m t below now blk side φ ψ p rest) (hheight : 0 < (blk side).header.height)
    (hg : g.header.height = 0) (hmoves : φ.Moves side.other χ)
    (hat : Stage.At m g t below now blk χ n) (hguard : Guarded (.applyBlock (blk side)) n) :
    χ.chain blk (t :: below) = p :: rest ∧ Joins m (now side) (blk side) p rest := by
  obtain ⟨htip, e, hunknown⟩ := hguard
  have hlater := h.later.trans hmoves
  have hsuffix := h.suffix.trans hlater.suffix
  obtain ⟨hd, r, hchain⟩ := hat.rules.exists_cons
  have hhash : hd.hash = p.hash := by
    rw [hat.stores.tip hchain, h.link] at htip
    exact Except.ok.inj htip
  have hhd : hd ∈ χ.chain blk (t :: below) := hchain ▸ List.mem_cons_self
  obtain rfl : hd = p := hat.rules.hash_inj hhd (hsuffix.subset List.mem_cons_self) hhash
  have hwhole : χ.chain blk (t :: below) = hd :: rest := by
    have hself : hd :: r <:+ χ.chain blk (t :: below) := hchain ▸ List.suffix_refl _
    rw [hchain, (hat.rules.branch hg).suffix_inj hself hsuffix rfl]
  -- the parent is on top both then and now, so the stages are the same
  obtain rfl : χ = ψ := hlater.eq_of_suffix (hwhole ▸ h.suffix)
  obtain rfl := h.later.antisymm hmoves
  refine ⟨hwhole, ⟨hheight, h.header, h.bits, fun n' hn' ↦ ?_⟩, h.inLimits, fun x hx ↦ ?_⟩
  · exact h.transactions rfl n' (hwhole ▸ hn')
  · refine hat.stores.hash_ne_of_unknown hunknown (hwhole ▸ hx) ?_
    rcases List.mem_cons.mp hx with rfl | hx
    · exact h.inLimits
    · exact (hwhole ▸ hat.rules).inLimits_of_mem_tail hx

namespace Stage.At

variable {n : Node}

theorem putTotalWork (h : Stage.At m g t below now blk φ n) {hash : Hash}
    (hne : ∀ x ∈ t :: below, x.InLimits → x.hash ≠ hash) (work : ℕ) :
    Stage.At m g t below now blk φ { n with store := DB.putTotalWork n.store hash work } where
  legal := h.legal
  rules := h.rules
  stores := h.stores.putTotalWork hash work
  work hsuffix hlimits := by
    rw [DB.totalWork_putTotalWork, if_neg (hne _ (hsuffix.subset List.mem_cons_self) hlimits)]
    exact h.work hsuffix hlimits

/-- Applying a block that joins the chain moves the stage. -/
theorem applyBlock {p : Block} {rest : List Block} (h : Stage.At m g t below now blk φ n)
    (hg : g.header.height = 0) (hearly : Stage.none.Moves side.other φ)
    (hchain : φ.chain blk (t :: below) = p :: rest)
    (hjoins : Joins m (now side) (blk side) p rest) :
    ∃ χ, φ.Moves side χ ∧ χ ≠ .none ∧
      Stage.At m g t below now blk χ { n with store := DB.applyBlock n.store (blk side) } := by
  have hrules : Chain m g (p :: rest) := hchain ▸ h.rules
  have hstores : Stores (p :: rest) n.store := hchain ▸ h.stores
  have hstep := hjoins.extends hrules hg hstores
  have hwork : ∀ {x rest}, x :: rest <:+ t :: below → x.InLimits →
      DB.totalWork (DB.applyBlock n.store (blk side)) x.hash = .ok (chainWork (x :: rest)) := by
    intro x rest hsuffix hlimits
    rw [DB.totalWork_applyBlock]
    exact h.work hsuffix hlimits
  cases hearly with
  | stay =>
    obtain ⟨rfl, rfl⟩ := List.cons.inj hchain
    exact ⟨.one side, .first, nofun, hjoins, hrules.extend hstep,
      hstores.applyBlock hrules hg hstep, hwork⟩
  | first =>
    obtain ⟨rfl, rfl⟩ := List.cons.inj hchain
    refine ⟨.both side.other, .second, nofun, ⟨h.legal, ?_⟩, ?_, ?_, hwork⟩
    · rw [Side.other_other]
      exact hjoins
    · change Chain m g (blk side.other.other :: blk side.other :: t :: below)
      rw [Side.other_other]
      exact hrules.extend hstep
    · change Stores (blk side.other.other :: blk side.other :: t :: below) _
      rw [Side.other_other]
      exact hstores.applyBlock hrules hg hstep

/-- The work of the tip of a stage, read under the guard, is that of its chain. -/
theorem totalWork_tip {χ : Stage} {n' : Node} {hd : Block} {r : List Block}
    (h : Stage.At m g t below now blk φ n) (hg : g.header.height = 0)
    (hearly : Stage.none.Moves side.other φ) (hchain : φ.chain blk (t :: below) = hd :: r)
    (hmoves : φ.Moves side.other χ) (h' : Stage.At m g t below now blk χ n')
    (hguard : Guarded (.totalWork hd.hash) n') :
    DB.totalWork n'.store hd.hash = .ok (chainWork (hd :: r)) := by
  have hmem : hd ∈ χ.chain blk (t :: below) :=
    hmoves.suffix.subset (hchain ▸ List.mem_cons_self)
  have hbelow : r <:+ t :: below := hearly.tail_suffix hchain
  have hrules : Chain m g (hd :: r) := hchain ▸ h.rules
  rw [hguard hd rfl (h'.stores.stored hd hmem), DB.workOn]
  cases hrules with
  | genesis => rw [hg]; rfl
  | extend _ step =>
    rw [if_pos step.height_pos, step.link, h'.work hbelow step.parentInLimits]
    rfl

end Stage.At

/-- The end of a call: with no block applied, the block of this side does not join the chain. -/
abbrev AfterCall (m : Manager) (t : Block) (below : List Block) (now : Side → ℤ)
    (blk : Side → Block) (side : Side) (φ : Stage) (_ : Except Halt Unit) : Prop :=
  φ = .none → ¬ Joins m (now side) (blk side) t below

/-- Recording the work of a block that is not in the chain before. -/
theorem conforms_putTotalWork (hnew : ∀ x ∈ t :: below, x.InLimits → x.hash ≠ (blk side).hash)
    (work : ℕ) {next : Except Err Unit → Routine Unit} {post : Stage → Except Halt Unit → Prop}
    (hnext : ∀ χ, φ.Moves side.other χ →
      (submissions m g t below now blk).Conforms side post (next (.ok ())) χ) :
    (submissions m g t below now blk).Conforms side post
      (Store.putTotalWork (blk side).hash work >>= next) φ :=
  Protocol.conforms_write fun χ _ hχ hs _ ↦ ⟨χ, .stay χ, hs.putTotalWork hnew work, hnext χ hχ⟩

/-- The work that a block is given: that of its branch, if its parent is in the chain before. -/
theorem conforms_accumulatedWork {p : Block} {rest : List Block}
    (h : Checked m t below now blk side φ ψ p rest) (hheight : 0 < (blk side).header.height) :
    (submissions m g t below now blk).Conforms side
      (fun χ r ↦ ∃ work, r = .ok work ∧ φ.Moves side.other χ ∧
        (p :: rest <:+ t :: below → work = chainWork (blk side :: p :: rest)))
      (Manager.accumulatedWork (blk side)) φ := by
  unfold Manager.accumulatedWork
  dsimp only
  rw [if_pos hheight]
  refine Protocol.conforms_read (fun _ ↦ rfl) fun χ s hχ hs _ ↦ ?_
  dsimp only [submissions, exec]
  cases hread : DB.totalWork s.store (blk side).header.prevHash with
  | ok prevWork =>
    refine ⟨_, rfl, hχ, fun hsuffix ↦ ?_⟩
    rw [h.link, hs.work hsuffix h.inLimits] at hread
    rw [← Except.ok.inj hread]
    rfl
  | error e =>
    refine ⟨_, rfl, hχ, fun hsuffix ↦ ?_⟩
    rw [h.link, hs.work hsuffix h.inLimits] at hread
    cases hread

/-- Applying a block that has passed the checks. -/
theorem conforms_applyOnTip {p : Block} {rest : List Block}
    (h : Checked m t below now blk side φ ψ p rest) (hheight : 0 < (blk side).header.height)
    (hg : g.header.height = 0) {χ : Stage} (hχ : φ.Moves side.other χ) (work : ℕ) :
    (submissions m g t below now blk).Conforms side (AfterCall m t below now blk side)
      (applyOnTip (blk side) work) χ := by
  refine Protocol.conforms_write fun χ' s hχ' hs hguard ↦ ?_
  have hmoves := hχ.trans hχ'
  obtain ⟨hchain, hjoins⟩ := h.joins hheight hg hmoves hs hguard
  obtain ⟨next, hnext, hne, hs'⟩ :=
    hs.applyBlock hg ((h.early.trans h.later).trans hmoves) hchain hjoins
  refine ⟨next, hnext, hs', ?_⟩
  -- the stage is never `none` again
  have hnever : ∀ {ω : Stage}, next.Moves side.other ω → ω ≠ .none := fun hω heq ↦
    hne (hω.eq_none heq)
  refine conforms_putTotalWork h.new work fun ω hω ↦ ?_
  intro ω' s' hω' hs' _
  exact ⟨ω', .stay ω', ⟨hs'.legal, hs'.rules, hs'.stores, hs'.work⟩,
    fun heq ↦ absurd heq (hnever (hω.trans hω'))⟩

theorem conforms_connectBlock {p : Block} {rest : List Block}
    (h : Checked m t below now blk side φ ψ p rest) (hheight : 0 < (blk side).header.height)
    (hg : g.header.height = 0) (fuel : ℕ) :
    (submissions m g t below now blk).Conforms side (AfterCall m t below now blk side)
      (Manager.connectBlock fuel (blk side)) φ := by
  unfold Manager.connectBlock
  refine (conforms_accumulatedWork h hheight).bind (fun χ incomingWork hpost ↦ ?_)
    fun χ e hpost ↦ ?_
  swap
  · obtain ⟨_, hok, -⟩ := hpost
    cases hok
  obtain ⟨work, hok, hχ, hbranch⟩ := hpost
  obtain rfl := Except.ok.inj hok
  refine Protocol.conforms_read (fun _ ↦ rfl) fun χ₂ s hχ₂ hs _ ↦ ?_
  have hmoves := hχ.trans hχ₂
  have hearly := (h.early.trans h.later).trans hmoves
  obtain ⟨hd, r, hchain⟩ := hs.rules.exists_cons
  dsimp only [submissions, exec]
  rw [hs.stores.tip hchain]
  refine Protocol.conforms_read (fun _ ↦ rfl) fun χ₃ s₃ hχ₃ hs₃ hguard ↦ ?_
  have hcurrent := hs.totalWork_tip hg hearly hchain hχ₃ hs₃ hguard
  change Protocol.Conforms _ _ _ (if (blk side).header.prevHash = hd.hash then _
    else if incomingWork ≤ (DB.totalWork s₃.store hd.hash).toOption.getD 0 then _
    else _) χ₃
  rw [hcurrent]
  by_cases hprev : (blk side).header.prevHash = hd.hash
  · rw [if_pos hprev]
    exact conforms_applyOnTip h hheight hg (hmoves.trans hχ₃) incomingWork
  · -- the parent is below the tip, where a branch is not heavier
    have hsuffix : p :: rest <:+ hd :: r := hchain ▸ h.suffix.trans (h.later.trans hmoves).suffix
    obtain ⟨above, habove⟩ : ∃ above, above :: p :: rest <:+ hd :: r := by
      rcases eq_or_exists_of_suffix hsuffix with heq | habove
      · exact absurd (h.link.trans (congrArg Block.hash (List.cons.inj heq).1.symm)) hprev
      · exact habove
    have hbelow : p :: rest <:+ r := by
      rcases List.suffix_cons_iff.mp hsuffix with heq | hbelow
      · exact absurd (h.link.trans (congrArg Block.hash (List.cons.inj heq).1)) hprev
      · exact hbelow
    have hle : incomingWork ≤ chainWork (hd :: r) := by
      rw [hbranch (hbelow.trans (hearly.tail_suffix hchain))]
      exact (hchain ▸ hs.rules).work_le habove h.bits
    rw [if_neg hprev]
    change Protocol.Conforms _ _ _ (if incomingWork ≤ chainWork (hd :: r) then _ else _) χ₃
    rw [if_pos hle]
    refine conforms_putTotalWork h.new incomingWork fun χ₄ hχ₄ hnone hjoins ↦ hprev ?_
    subst hnone
    obtain rfl := hearly.antisymm (hχ₃.trans hχ₄)
    rw [hjoins.link, (List.cons.inj hchain).1]

/-- A call of one side conforms. -/
theorem conforms_validateAndApplyBlock {n₀ : Node}
    (hledger : DB.utxos n₀.store = Ledger.replay (t :: below)) (hg : g.header.height = 0)
    (hheight : 0 < (blk side).header.height) (fuel : ℕ) :
    (submissions m g t below now blk).Conforms side (AfterCall m t below now blk side)
      (m.validateAndApplyBlock (now side) fuel (blk side)) .none := by
  unfold Manager.validateAndApplyBlock
  refine (conforms_checkBlock hledger hg hheight).bind (fun φ _ hpost ↦ ?_) fun φ e hpost ↦ hpost
  obtain ⟨ψ, p, rest, hchecked⟩ := hpost
  exact conforms_connectBlock hchecked hheight hg fuel

end Conforms

/-! ### Every guarded interleaving is serial -/

section Serial

variable {m : Manager} {g t : Block} {below : List Block} {now : Side → ℤ} {blk : Side → Block}
  {φ : Stage} {n : Node}

/-- The state of the two calls, the call of one side first. -/
def inOrder (m : Manager) (now : Side → ℤ) (fuel : Side → ℕ) (blk : Side → Block) (n : Node)
    (first : Side) : Node :=
  inSequence m (now first) (now first.other) (fuel first) (fuel first.other) (blk first)
    (blk first.other) n

/-- The chain of a stage in which two calls can end is that of one call after the other. -/
theorem Stage.Legal.exists_inOrder (h : φ.Legal m t below now blk)
    (hnone : φ = .none → ∀ side, ¬ Joins m (now side) (blk side) t below)
    (hheight : ∀ side, 0 < (blk side).header.height) (hchain : Chain m g (t :: below))
    (hg : g.header.height = 0) (hholds : Holds (t :: below) n.store) (fuel : Side → ℕ) :
    ∃ first, Holds (φ.chain blk (t :: below)) (inOrder m now fuel blk n first).store := by
  cases φ with
  | none =>
    refine ⟨.left, ?_⟩
    have hfirst := call_of_not_joins (hnone rfl .left) (hheight .left) hchain hg hholds (fuel .left)
    exact call_of_not_joins (hnone rfl .right) (hheight .right) hchain hg hfirst (fuel .right)
  | one side =>
    by_cases hother : Joins m (now side.other) (blk side.other) t below
    · exact ⟨side, Joins.inSequence h hother hchain hg hholds (fuel side) (fuel side.other)⟩
    · refine ⟨side.other, ?_⟩
      have hfirst := call_of_not_joins hother (hheight side.other) hchain hg hholds
        (fuel side.other)
      unfold inOrder
      rw [Side.other_other]
      exact (Joins.call h hchain hg hfirst (fuel side)).2
  | both first =>
    refine ⟨first, ?_⟩
    obtain ⟨hchain', hfirst⟩ := Joins.call h.1 hchain hg hholds (fuel first)
    exact (Joins.call h.2 hchain' hg hfirst (fuel first.other)).2

/-- Every guarded interleaving of two calls ends with the tip and the ledger of one call after the
other, and the ledger is that of the blocks of the chain of the tip. -/
theorem interleaving_serialisable {tips : List Block} (hrun : Run m PositiveHeight g tips n)
    {A B : Block} (hA : 0 < A.header.height) (hB : 0 < B.header.height) {nowA nowB : ℤ}
    {fuelA fuelB : ℕ} {rA rB : Except Halt Unit} {n' : Node}
    (h : Interleaves exec Guarded (m.validateAndApplyBlock nowA fuelA A)
      (m.validateAndApplyBlock nowB fuelB B) n rA rB n') :
    (∃ n'', (n'' = inSequence m nowA nowB fuelA fuelB A B n ∨
        n'' = inSequence m nowB nowA fuelB fuelA B A n) ∧
      DB.tip n'.store = DB.tip n''.store ∧ DB.utxos n'.store = DB.utxos n''.store) ∧
    ∃ chain, Chain m g chain ∧ Stores chain n'.store := by
  obtain ⟨hchain, hholds⟩ := hrun.holds fun _ _ _ hallowed ↦ hallowed
  have hg := hrun.genesis.height
  obtain ⟨t, below, rfl⟩ := hchain.exists_cons
  have hheight : ∀ side, 0 < (Side.pick A B side).header.height := by
    intro side
    cases side with
    | left => exact hA
    | right => exact hB
  have hconforms : ∀ side, (submissions m g t below (Side.pick nowA nowB)
      (Side.pick A B)).Conforms side
      (AfterCall m t below (Side.pick nowA nowB) (Side.pick A B) side)
      (m.validateAndApplyBlock (Side.pick nowA nowB side) (Side.pick fuelA fuelB side)
        (Side.pick A B side)) .none := fun side ↦
    conforms_validateAndApplyBlock hholds.ledger hg (hheight side) _
  have hat : Stage.At m g t below (Side.pick nowA nowB) (Side.pick A B) .none n :=
    ⟨trivial, hchain, hholds.toStores, hholds.work⟩
  obtain ⟨φ, hend, hleft, hright⟩ := Protocol.interleaves_spec h hat (hconforms .left)
    (hconforms .right) (fun _ _ _ hmoves hpost hnone ↦ hpost (hmoves.eq_none hnone))
    fun _ _ _ hmoves hpost hnone ↦ hpost (hmoves.eq_none hnone)
  have hnone : φ = .none →
      ∀ side, ¬ Joins m (Side.pick nowA nowB side) (Side.pick A B side) t below := by
    intro hφ side
    cases side with
    | left => exact hleft hφ
    | right => exact hright hφ
  obtain ⟨first, hserial⟩ := hend.legal.exists_inOrder hnone hheight hchain hg hholds
    (Side.pick fuelA fuelB)
  obtain ⟨hd, r, hcons⟩ := hend.rules.exists_cons
  refine ⟨⟨inOrder m (Side.pick nowA nowB) (Side.pick fuelA fuelB) (Side.pick A B) n first, ?_,
    ?_, ?_⟩, _, hend.rules, hend.stores⟩
  · cases first with
    | left => exact .inl rfl
    | right => exact .inr rfl
  · rw [hend.stores.tip hcons, hserial.tip hcons]
  · rw [hend.stores.ledger, hserial.ledger]

end Serial

/-! ### Interleavings that exist -/

section Exist

variable {m : Manager} {g b p : Block} {rest : List Block} {n : Node} {now : ℤ} {fuel : ℕ}

/-- On a store that holds a chain of readable blocks, reading work is guarded. -/
theorem Holds.guarded_totalWork (h : Holds (p :: rest) n.store) (hchain : Chain m g (p :: rest))
    (hg : g.header.height = 0) (hlimits : p.InLimits) (hash : Hash) :
    Guarded (.totalWork hash) n := by
  rintro x rfl hstored
  obtain ⟨y, hy, hhash⟩ := h.only x.hash _ hstored
  obtain ⟨below, hsuffix⟩ := exists_suffix_of_mem hy
  have hbelow := hchain.of_suffix hsuffix
  have hlimits' : y.InLimits := by
    rcases List.mem_cons.mp hy with rfl | hy
    · exact hlimits
    · exact hchain.inLimits_of_mem_tail hy
  have hget := h.getBlock_of_mem hy hlimits'
  rw [hhash, DB.getBlock, hstored] at hget
  obtain ⟨rfl, -⟩ := eq_of_deserializeBlock_serializeBlock hget
  rw [h.work hsuffix hlimits', DB.workOn]
  cases hbelow with
  | genesis => rw [hg]; rfl
  | extend below step =>
    rw [if_pos step.height_pos, step.link,
      h.work ((List.suffix_cons _ _).trans hsuffix) step.parentInLimits]
    rfl

theorem guarded_of_reads (c : Call) (h : c.Reads) (n : Node) : Guarded c n := by
  cases c <;> trivial

/-- What a call does after its checks is guarded, on top of the tip with a new block, and elsewhere
with a block that is not heavier than the tip. -/
theorem Holds.along_connectBlock (hholds : Holds (p :: rest) n.store)
    (hchain : Chain m g (p :: rest)) (hg : g.header.height = 0) (hlimits : p.InLimits)
    (hheight : 0 < b.header.height)
    (hnew : b.header.prevHash = p.hash → ∃ e, DB.getBlock n.store b.hash = .error e)
    (hlight : b.header.prevHash ≠ p.hash → DB.workOn n.store b ≤ chainWork (p :: rest)) :
    (Manager.connectBlock fuel b).Along exec Guarded n := by
  have hguarded := hholds.guarded_totalWork hchain hg hlimits
  have htip : DB.tip n.store = .ok p.hash := hholds.tip rfl
  unfold Manager.connectBlock
  refine Prog.along_bind ?_ fun work n' hrun ↦ ?_
  · unfold Manager.accumulatedWork
    dsimp only
    rw [if_pos hheight]
    refine ⟨hguarded _, ?_⟩
    dsimp only [exec]
    cases DB.totalWork n.store b.header.prevHash <;> trivial
  · rw [run_accumulatedWork] at hrun
    cases hrun
    refine ⟨trivial, ?_⟩
    dsimp only [exec]
    rw [htip]
    refine ⟨hguarded _, ?_⟩
    have hcurrent := hholds.work (List.suffix_refl _) hlimits
    change Prog.Along exec Guarded (if b.header.prevHash = p.hash then _
      else if DB.workOn n.store b ≤ (DB.totalWork n.store p.hash).toOption.getD 0 then _ else _) n
    rw [hcurrent]
    by_cases hprev : b.header.prevHash = p.hash
    · rw [if_pos hprev]
      exact ⟨⟨by rw [htip, hprev], hnew hprev⟩, trivial, trivial, trivial⟩
    · rw [if_neg hprev]
      change Prog.Along exec Guarded
        (if DB.workOn n.store b ≤ chainWork (p :: rest) then _ else _) n
      rw [if_pos (hlight hprev)]
      exact ⟨trivial, trivial⟩

/-- Two calls with blocks that both join a readable chain can run so that the second one makes its
checks before the first one writes, and looks at the tip after that. Both return, and the first
block is the tip. -/
theorem Joins.alternates {b' : Block} {now' : ℤ} {fuel' : ℕ} (h : Joins m now b p rest)
    (h' : Joins m now' b' p rest) (hlimits : b.InLimits) (hchain : Chain m g (p :: rest))
    (hg : g.header.height = 0) (hholds : Holds (p :: rest) n.store) :
    ∃ n', Interleaves exec Guarded (m.validateAndApplyBlock now fuel b)
        (m.validateAndApplyBlock now' fuel' b') n (.ok ()) (.ok ()) n' ∧
      DB.tip n'.store = .ok b.hash := by
  obtain ⟨e, hunknown⟩ := h.getBlock_eq_error hholds.toStores
  obtain ⟨e', hunknown'⟩ := h'.getBlock_eq_error hholds.toStores
  obtain ⟨hcheck, hstep⟩ := h.toValidOn.passes hchain hg hholds.toStores h.inLimits hunknown
  obtain ⟨hcheck', -⟩ := h'.toValidOn.passes hchain hg hholds.toStores h'.inLimits hunknown'
  have htip : DB.tip n.store = .ok b.header.prevHash := by rw [hholds.tip rfl, h.link]
  -- the first call applies its block
  have hconnect : (Manager.connectBlock fuel b).run exec n =
      (.ok (), Node.mined { n with store := DB.extend n.store b } b) := by
    rw [run_connectBlock, htip]
    exact if_pos rfl
  have halong : (Manager.connectBlock fuel b).Along exec Guarded n :=
    hholds.along_connectBlock hchain hg h.inLimits h.height (fun _ ↦ ⟨e, hunknown⟩)
      fun hne ↦ absurd h.link hne
  -- the second one finds it as the tip, and records the work of its own block
  have hholds₁ : Holds (b :: p :: rest) (DB.extend n.store b) := hholds.extend hchain hg hstep
  have hbelow : b'.header.prevHash ≠ b.hash := by
    rw [h'.link]
    exact h.unknown p List.mem_cons_self
  have hlight : DB.workOn (DB.extend n.store b) b' ≤ chainWork (b :: p :: rest) := by
    rw [hholds₁.workOn (List.suffix_cons _ _) h'.inLimits h'.link h'.height]
    exact (hchain.extend hstep).work_le (List.suffix_refl _) h'.bits
  have hconnect' : (Manager.connectBlock fuel' b').run exec
      (Node.mined { n with store := DB.extend n.store b } b) =
        (.ok (), { Node.mined { n with store := DB.extend n.store b } b with
          store := DB.putTotalWork (DB.extend n.store b) b'.hash
            (DB.workOn (DB.extend n.store b) b') }) := by
    rw [run_connectBlock, Node.mined_store, hholds₁.tip rfl]
    dsimp only
    rw [if_neg hbelow, hholds₁.work (List.suffix_refl _) hlimits]
    exact if_pos hlight
  have halong' : (Manager.connectBlock fuel' b').Along exec Guarded
      (Node.mined { n with store := DB.extend n.store b } b) :=
    Holds.along_connectBlock (n := Node.mined { n with store := DB.extend n.store b } b) hholds₁
      (hchain.extend hstep) hg hlimits h'.height (fun hprev ↦ absurd hprev hbelow) fun _ ↦ hlight
  have hreads (now : ℤ) (b : Block) : (m.checkBlock now b).Along exec Guarded n :=
    Prog.along_of_only guarded_of_reads (only_checkBlock m now b) n
  have hserial := Interleaves.serial halong (by rw [hconnect]; exact halong')
  rw [hconnect, hconnect'] at hserial
  refine ⟨_, Interleaves.left_run (hreads now b) hcheck
    (Interleaves.left_run (hreads now' b') hcheck' hserial.symm).symm, ?_⟩
  rw [DB.tip_putTotalWork]
  exact hholds₁.tip rfl

/-- The reading part of a call with a block that passes the checks on top of the tip. -/
theorem Interleaves.left_reads {q : Routine Unit} {n' : Node} {r r' : Except Halt Unit}
    (hcheck : (m.checkBlock now b).run exec n = (.ok (), n))
    (htip : DB.tip n.store = .ok b.header.prevHash)
    (h : Interleaves exec (fun _ _ ↦ True) (applyOnTip b (DB.workOn n.store b)) q n r r' n') :
    Interleaves exec (fun _ _ ↦ True) (m.validateAndApplyBlock now fuel b) q n r r' n' := by
  have htrue : ∀ (c : Call) (n : Node), (fun (_ : Call) (_ : Node) ↦ True) c n := fun _ _ ↦ trivial
  unfold Manager.validateAndApplyBlock
  refine Interleaves.left_run (Prog.along_of_forall htrue _ n) hcheck ?_
  unfold Manager.connectBlock
  refine Interleaves.left_run (Prog.along_of_forall htrue _ n) (run_accumulatedWork b n) ?_
  refine .left trivial ?_
  dsimp only [exec]
  rw [htip]
  refine .left trivial ?_
  change Interleaves exec _ (if b.header.prevHash = b.header.prevHash then _ else _) q n r r' n'
  rw [if_pos rfl]
  exact h

/-- Two blocks that both join the chain can both be applied, one on top of the other. -/
theorem Joins.race {b' : Block} {now' : ℤ} {fuel' : ℕ} (h : Joins m now b p rest)
    (h' : Joins m now' b' p rest) (hchain : Chain m g (p :: rest)) (hg : g.header.height = 0)
    (hholds : Holds (p :: rest) n.store) :
    ∃ n', Interleaves exec (fun _ _ ↦ True) (m.validateAndApplyBlock now fuel b)
        (m.validateAndApplyBlock now' fuel' b') n (.ok ()) (.ok ()) n' ∧
      DB.tip n'.store = .ok b'.hash ∧
      DB.utxos n'.store = ((Ledger.replay (p :: rest)).apply b).apply b' := by
  obtain ⟨e, hunknown⟩ := h.getBlock_eq_error hholds.toStores
  obtain ⟨e', hunknown'⟩ := h'.getBlock_eq_error hholds.toStores
  obtain ⟨hcheck, -⟩ := h.toValidOn.passes hchain hg hholds.toStores h.inLimits hunknown
  obtain ⟨hcheck', -⟩ := h'.toValidOn.passes hchain hg hholds.toStores h'.inLimits hunknown'
  have htip : DB.tip n.store = .ok b.header.prevHash := by rw [hholds.tip rfl, h.link]
  have htip' : DB.tip n.store = .ok b'.header.prevHash := by rw [hholds.tip rfl, h'.link]
  have halong : ∀ x n', (applyOnTip x (DB.workOn n.store x)).Along exec (fun _ _ ↦ True) n' :=
    fun x ↦ Prog.along_of_forall (fun _ _ ↦ trivial) _
  have hserial := Interleaves.serial (halong b n) (halong b' _)
  rw [run_applyOnTip, run_applyOnTip] at hserial
  refine ⟨_, (Interleaves.left_reads hcheck' htip'
    (Interleaves.left_reads hcheck htip hserial).symm).symm, ?_, ?_⟩
  · rw [Node.mined_store, DB.tip_putTotalWork, DB.tip_applyBlock]
  · rw [Node.mined_store, DB.utxos_putTotalWork, DB.utxos_applyBlock, Node.mined_store,
      DB.utxos_putTotalWork, DB.utxos_applyBlock, hholds.ledger]

end Exist

namespace Regtest

theorem joins_blockA : Joins manager 1790000000 blockA genesis [] :=
  ⟨validOn_blockA, genesis_inLimits, hash_ne_blockA⟩

theorem joins_blockB : Joins manager 1790000000 blockB genesis [] := by
  refine ⟨validOn_blockB, genesis_inLimits, fun x hx ↦ ?_⟩
  rw [List.mem_singleton.mp hx]
  exact Ne.symm hashes_ne.2.1.2

end Regtest

/-- Blocks A and B are submitted at the same time. B is checked before A is applied, and loses. -/
theorem interleaving_serialisable_regtest :
    ∃ n', Interleaves exec Guarded
        (Regtest.manager.validateAndApplyBlock 1790000000 1 Regtest.blockA)
        (Regtest.manager.validateAndApplyBlock 1790000000 1 Regtest.blockB)
        Regtest.afterGenesis (.ok ()) (.ok ()) n' ∧
      DB.tip n'.store = .ok Regtest.blockA.hash ∧
      (∃ n'', (n'' = inSequence Regtest.manager 1790000000 1790000000 1 1 Regtest.blockA
            Regtest.blockB Regtest.afterGenesis ∨
          n'' = inSequence Regtest.manager 1790000000 1790000000 1 1 Regtest.blockB
            Regtest.blockA Regtest.afterGenesis) ∧
        DB.tip n'.store = DB.tip n''.store ∧ DB.utxos n'.store = DB.utxos n''.store) ∧
      ∃ chain, Chain Regtest.manager Regtest.genesis chain ∧ Stores chain n'.store := by
  have hrun : Run Regtest.manager PositiveHeight _ _ _ := .start Regtest.starts
  obtain ⟨hchain, hholds⟩ := hrun.holds fun _ _ _ h ↦ h
  obtain ⟨n', hinterleaves, htip⟩ := Regtest.joins_blockA.alternates Regtest.joins_blockB
    Regtest.blockA_inLimits hchain hrun.genesis.height hholds
  exact ⟨n', hinterleaves, htip, interleaving_serialisable hrun Regtest.validOn_blockA.height
    Regtest.validOn_blockB.height hinterleaves⟩

namespace Regtest

theorem supply_both :
    (((Ledger.replay [genesis]).apply blockA).apply blockB).supply ≠
      (Ledger.replay [blockB, genesis]).supply := by
  have hB : Ledger.blockOps blockB = [Ledger.setRecord (coin blockB.header.merkleRoot 1 0x22)] :=
    blockOps_block hash_coinbaseB
  have hreplay : Ledger.replay [blockB, genesis] = (Ledger.replay [genesis]).apply blockB := rfl
  rw [hreplay, Ledger.apply, Ledger.apply, Ledger.apply, blockOps_blockA, hB, replay_genesis]
  decide

/-- Both blocks on top of genesis are applied. The tip is not that of the one order, and the ledger
not that of the other one, where it is made of the blocks of the chain of the tip. -/
theorem bothOnTip_not_serial :
    ∃ n', Interleaves exec (fun _ _ ↦ True)
        (manager.validateAndApplyBlock 1790000000 1 blockA)
        (manager.validateAndApplyBlock 1790000000 1 blockB) afterGenesis (.ok ()) (.ok ()) n' ∧
      DB.tip n'.store = .ok blockB.hash ∧
      DB.tip n'.store ≠
        DB.tip (inSequence manager 1790000000 1790000000 1 1 blockA blockB afterGenesis).store ∧
      DB.utxos n'.store ≠
        DB.utxos (inSequence manager 1790000000 1790000000 1 1 blockB blockA afterGenesis).store ∧
      DB.utxos n'.store ≠ Ledger.replay [blockB, genesis] := by
  have hrun : Run manager PositiveHeight _ _ _ := .start starts
  obtain ⟨hchain, hholds⟩ := hrun.holds fun _ _ _ h ↦ h
  have hg := hrun.genesis.height
  obtain ⟨n', hinterleaves, htip, hledger⟩ := joins_blockA.race joins_blockB hchain hg hholds
  have hsupply : DB.utxos n'.store ≠ Ledger.replay [blockB, genesis] := by
    intro heq
    rw [hledger] at heq
    exact supply_both (congrArg Ledger.supply heq)
  refine ⟨n', hinterleaves, htip, ?_, ?_, hsupply⟩
  · rw [htip, (joins_blockA.inSequence joins_blockB hchain hg hholds 1 1).tip rfl]
    exact fun heq ↦ hashes_ne.2.1.1 (Except.ok.inj heq)
  · rw [(joins_blockB.inSequence joins_blockA hchain hg hholds 1 1).ledger]
    exact hsupply

end Regtest

end NevelCore
