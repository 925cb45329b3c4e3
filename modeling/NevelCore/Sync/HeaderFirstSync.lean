import NevelCore.Chain.Runs

/-!
# Synchronisation by headers first

`Synchronizer.HeaderFirstSync`: asks a source for the headers above the tip, then for the block of
each header, and hands these to `ValidateAndApplyBlock`. The answers of the source and the readings
of the clock are arguments. They are numbered, so that the same question can be answered differently
the next time.

`ValidateAndApplyBlock` also ends without an error when it only records a block of a side branch, or
after it has switched branches. Neither happens here, whatever the source answers: the header names
the tip as its parent and the block has the hash of the header, so a block that is accepted extends
the tip (`syncBlocks_spec`). The result counts the applied blocks exactly, unless there is no answer
to the request for headers: then it is the zero `Result`, with the wrong height if the tip is above
genesis (`accounted_iff`, `headers_refused`).
-/

set_option autoImplicit false
set_option relaxedAutoImplicit false

namespace NevelCore.Sync

open Foundations

/-! ### The model -/

/-- `HeaderSource`. The second function has the number of the question as an argument. -/
structure HeaderSource (ε : Type) where
  headers : List Hash → Hash → Except ε (List BlockHeader)
  block : ℕ → Hash → Except ε Block

/-- `Result`. -/
structure Result where
  headers : ℕ
  blocks : ℕ
  tipHeight : UInt64
deriving DecidableEq

/-- `Result{}`. -/
def Result.zero : Result := ⟨0, 0, 0⟩

inductive SyncError (ε : Type) where
  | chainManagerRequired
  | nonContiguous
  | hashMismatch
  | chain (cause : Halt)
  | source (cause : ε)
deriving DecidableEq

/-- The texts of the errors of this package. -/
def SyncError.message {ε : Type} : SyncError ε → Option String
  | .chainManagerRequired => some "chain manager required"
  | .nonContiguous => some "non-contiguous header chain"
  | .hashMismatch => some "block/header hash mismatch"
  | _ => none

section Model

variable {ε : Type} (m : Manager) (source : HeaderSource ε) (now : ℕ → ℤ) (fuel : ℕ)

/-- The loop over the headers, from the question with a number on. -/
def syncBlocks : ℕ → List BlockHeader → Result → Hash → Routine (Result × Option (SyncError ε))
  | _, [], result, _ => pure (result, none)
  | k, header :: headers, result, expectedPrev =>
    if header.prevHash ≠ expectedPrev then pure (result, some .nonContiguous)
    else
      match source.block k header.hash with
      | .error e => pure (result, some (.source e))
      | .ok block =>
        if block.header.hash ≠ header.hash then pure (result, some .hashMismatch)
        else do
          match ← (m.validateAndApplyBlock (now k) fuel block).result with
          | .error halt => pure (result, some (.chain halt))
          | .ok () =>
            syncBlocks (k + 1) headers
              { result with blocks := result.blocks + 1, tipHeight := block.header.height }
              header.hash

/-- `HeaderFirstSync`. -/
def headerFirstSync (chain : Option Manager) : Routine (Result × Option (SyncError ε)) :=
  match chain with
  | none => pure (.zero, some .chainManagerRequired)
  | some m => do
    match ← Manager.tipBlock.result with
    | .error halt => pure (.zero, some (.chain halt))
    | .ok tip =>
      match source.headers [tip.hash] Bytes32.zero with
      | .error e => pure (.zero, some (.source e))
      | .ok headers =>
        syncBlocks m source now fuel 0 headers ⟨headers.length, 0, tip.header.height⟩ tip.hash

end Model

/-! ### One round of the loop -/

section Loop

variable {ε : Type} {m : Manager} {source : HeaderSource ε} {now : ℕ → ℤ} {fuel k : ℕ}
  {header : BlockHeader} {headers : List BlockHeader} {result result' : Result} {b : Block}
  {expectedPrev : Hash} {n n' : Node} {err : Option (SyncError ε)}

theorem run_syncBlocks_of_block (hprev : header.prevHash = expectedPrev)
    (hblock : source.block k header.hash = .ok b) (hhash : b.header.hash = header.hash) :
    (syncBlocks m source now fuel k (header :: headers) result expectedPrev).run exec n =
      match (m.validateAndApplyBlock (now k) fuel b).run exec n with
      | (.error halt, n') => (.ok (result, some (.chain halt)), n')
      | (.ok (), n') => (syncBlocks m source now fuel (k + 1) headers
          { result with blocks := result.blocks + 1, tipHeight := b.header.height }
          header.hash).run exec n' := by
  rw [syncBlocks, if_neg (not_not.mpr hprev), hblock]
  dsimp only
  rw [if_neg (not_not.mpr hhash), Prog.run_bind, Prog.run_result]
  rcases (m.validateAndApplyBlock (now k) fuel b).run exec n with ⟨_ | ⟨⟨⟩⟩, n'⟩
  · rfl
  · rfl

/-- A block on top of the tip extends it, or changes nothing. -/
theorem validateAndApplyBlock_on_tip {now : ℤ} {r : Except Halt Unit}
    (htip : DB.tip n.store = .ok b.header.prevHash)
    (hcall : (m.validateAndApplyBlock now fuel b).run exec n = (r, n')) :
    (∃ halt, r = .error halt) ∧ n' = n ∨ r = .ok () ∧ n'.store = DB.extend n.store b := by
  rcases validateAndApplyBlock_cases hcall with ⟨e, -, rfl, rfl⟩ | ⟨-, hconnect⟩
  · exact .inl ⟨⟨e, rfl⟩, rfl⟩
  · rw [run_connectBlock, htip] at hconnect
    dsimp only at hconnect
    rw [if_pos rfl] at hconnect
    cases hconnect
    exact .inr ⟨rfl, rfl⟩

/-- A round of the loop ends it with an error and leaves the node as it was, or the block of the
header has extended the tip. -/
theorem syncBlocks_cons_cases (htip : DB.tip n.store = .ok expectedPrev)
    (hinj : ∀ b, source.block k header.hash = .ok b → b.header.hash = header.hash →
      b.header = header)
    (hrun : (syncBlocks m source now fuel k (header :: headers) result expectedPrev).run exec n =
      (.ok (result', err), n')) :
    (result' = result ∧ n' = n) ∨
      ∃ b n₁, header.prevHash = expectedPrev ∧ source.block k header.hash = .ok b ∧
        b.header = header ∧ n₁.store = DB.extend n.store b ∧
        (syncBlocks m source now fuel (k + 1) headers
          { result with blocks := result.blocks + 1, tipHeight := b.header.height }
          header.hash).run exec n₁ = (.ok (result', err), n') := by
  by_cases hprev : header.prevHash = expectedPrev
  · cases hblock : source.block k header.hash with
    | error e =>
      rw [syncBlocks, if_neg (not_not.mpr hprev), hblock] at hrun
      cases hrun
      exact .inl ⟨rfl, rfl⟩
    | ok b =>
      by_cases hhash : b.header.hash = header.hash
      · have hheader := hinj b hblock hhash
        rw [← hprev, ← hheader] at htip
        rw [run_syncBlocks_of_block hprev hblock hhash] at hrun
        rcases hcall : (m.validateAndApplyBlock (now k) fuel b).run exec n with ⟨r, n₁⟩
        rw [hcall] at hrun
        rcases validateAndApplyBlock_on_tip htip hcall with ⟨⟨halt, rfl⟩, rfl⟩ | ⟨rfl, hstore⟩
        · cases hrun
          exact .inl ⟨rfl, rfl⟩
        · exact .inr ⟨b, n₁, hprev, rfl, hheader, hstore, hrun⟩
      · rw [syncBlocks, if_neg (not_not.mpr hprev), hblock] at hrun
        dsimp only at hrun
        rw [if_pos hhash] at hrun
        cases hrun
        exact .inl ⟨rfl, rfl⟩
  · rw [syncBlocks, if_pos hprev] at hrun
    cases hrun
    exact .inl ⟨rfl, rfl⟩

/-- The loop returns. -/
theorem syncBlocks_returns (m : Manager) (source : HeaderSource ε) (now : ℕ → ℤ) (fuel : ℕ)
    (headers : List BlockHeader) (k : ℕ) (result : Result) (expectedPrev : Hash) (n : Node) :
    ∃ result' err n', (syncBlocks m source now fuel k headers result expectedPrev).run exec n =
      (.ok (result', err), n') := by
  induction headers generalizing k result expectedPrev n with
  | nil => exact ⟨_, _, _, rfl⟩
  | cons header headers ih =>
    by_cases hprev : header.prevHash = expectedPrev
    · cases hblock : source.block k header.hash with
      | error e =>
        rw [syncBlocks, if_neg (not_not.mpr hprev), hblock]
        exact ⟨_, _, _, rfl⟩
      | ok b =>
        by_cases hhash : b.header.hash = header.hash
        · rw [run_syncBlocks_of_block hprev hblock hhash]
          split
          · exact ⟨_, _, _, rfl⟩
          · exact ih _ _ _ _
        · rw [syncBlocks, if_neg (not_not.mpr hprev), hblock]
          dsimp only
          rw [if_pos hhash]
          exact ⟨_, _, _, rfl⟩
    · rw [syncBlocks, if_pos hprev]
      exact ⟨_, _, _, rfl⟩

end Loop

/-! ### The blocks that were applied -/

/-- Blocks, oldest first, were applied on top of block `t`: they are the answers for the first of
the headers, and each is a child of the one before. -/
structure Applied {ε : Type} (source : HeaderSource ε) (k : ℕ) (headers : List BlockHeader)
    (t : Block) (d : Store) (blocks : List Block) (d' : Store) : Prop where
  headers : blocks.map Block.header = headers.take blocks.length
  answers : ∀ i b, blocks[i]? = some b → source.block (k + i) b.hash = .ok b
  linked : (t :: blocks).IsChain fun p b ↦ b.header.prevHash = p.hash
  store : d' = blocks.foldl DB.extend d

/-- The last of some blocks, or the block below them. -/
def topOf (t : Block) (blocks : List Block) : Block := blocks.getLastD t

section Applied

variable {ε : Type} {m : Manager} {source : HeaderSource ε} {now : ℕ → ℤ} {fuel : ℕ} {t : Block}

theorem Applied.nil (source : HeaderSource ε) (k : ℕ) (headers : List BlockHeader) (t : Block)
    (d : Store) : Applied source k headers t d [] d :=
  ⟨rfl, nofun, List.IsChain.singleton t, rfl⟩

theorem Applied.cons {k : ℕ} {headers : List BlockHeader} {b : Block} {blocks : List Block}
    {d d' : Store} (hanswer : source.block k b.hash = .ok b) (hlink : b.header.prevHash = t.hash)
    (h : Applied source (k + 1) headers b (DB.extend d b) blocks d') :
    Applied source k (b.header :: headers) t d (b :: blocks) d' where
  headers := congrArg (b.header :: ·) h.headers
  answers := by
    rintro (_ | i) x hx
    · cases hx
      exact hanswer
    · rw [Nat.add_comm i 1, ← Nat.add_assoc]
      exact h.answers i x hx
  linked := List.isChain_cons_cons.mpr ⟨hlink, h.linked⟩
  store := h.store

/-- What the loop has done when it returns. -/
theorem syncBlocks_spec {headers : List BlockHeader} {k : ℕ} {result result' : Result}
    {err : Option (SyncError ε)} {n n' : Node} (htip : DB.tip n.store = .ok t.hash)
    (hheight : result.tipHeight = t.header.height)
    (hinj : ∀ header ∈ headers, ∀ k b, source.block k header.hash = .ok b →
      b.header.hash = header.hash → b.header = header)
    (hrun : (syncBlocks m source now fuel k headers result t.hash).run exec n =
      (.ok (result', err), n')) :
    ∃ blocks, Applied source k headers t n.store blocks n'.store ∧
      result'.blocks = result.blocks + blocks.length ∧
      result'.tipHeight = (topOf t blocks).header.height := by
  induction headers generalizing k result t n with
  | nil =>
    cases hrun
    exact ⟨[], .nil source k [] t _, rfl, hheight⟩
  | cons header headers ih =>
    obtain ⟨hfirst, hrest⟩ := List.forall_mem_cons.mp hinj
    rcases syncBlocks_cons_cases htip (hfirst k) hrun with
      ⟨rfl, rfl⟩ | ⟨b, n₁, hprev, hblock, rfl, hstore, hgoes⟩
    · exact ⟨[], .nil source k _ t _, rfl, hheight⟩
    · have htip₁ : DB.tip n₁.store = .ok b.hash := by rw [hstore, DB.tip_extend]
      obtain ⟨blocks, happlied, hcount, htop⟩ := ih htip₁ rfl hrest hgoes
      rw [hstore] at happlied
      refine ⟨b :: blocks, happlied.cons hblock hprev, ?_, ?_⟩
      · rw [hcount, List.length_cons]
        dsimp only
        omega
      · rw [htop, topOf, topOf, List.getLastD_cons]

theorem tip_foldl_extend {d : Store} (blocks : List Block) (htip : DB.tip d = .ok t.hash) :
    DB.tip (blocks.foldl DB.extend d) = .ok (topOf t blocks).hash := by
  induction blocks generalizing t d with
  | nil => exact htip
  | cons b blocks ih =>
    rw [List.foldl_cons, ih (DB.tip_extend d b), topOf, topOf, List.getLastD_cons]

theorem utxos_foldl_extend (blocks : List Block) (d : Store) :
    DB.utxos (blocks.foldl DB.extend d) = blocks.foldl Ledger.apply (DB.utxos d) := by
  induction blocks generalizing d with
  | nil => rfl
  | cons b blocks ih => rw [List.foldl_cons, List.foldl_cons, ih, DB.utxos_extend]

end Applied

/-! ### The accounts of a synchronisation -/

/-- The headers that a source answers with on top of a block. -/
def HeaderSource.received {ε : Type} (source : HeaderSource ε) (t : Block) : List BlockHeader :=
  (source.headers [t.hash] Bytes32.zero).toOption.getD []

/-- The result counts the blocks that were applied on top of block `t`: they are those of the first
headers, each a child of the one before, and the tip, its height and the unspent outputs are what
they leave. -/
def Accounted {ε : Type} (source : HeaderSource ε) (t : Block) (n : Node) (result : Result)
    (n' : Node) : Prop :=
  ∃ blocks : List Block, blocks.length = result.blocks ∧
    Applied source 0 (source.received t) t n.store blocks n'.store ∧
    DB.tip n'.store = .ok (topOf t blocks).hash ∧
    result.tipHeight = (topOf t blocks).header.height ∧
    DB.utxos n'.store = blocks.foldl Ledger.apply (DB.utxos n.store)

/-- Block `t` is the tip and is stored. -/
structure TipStored (n : Node) (t : Block) : Prop where
  tip : DB.tip n.store = .ok t.hash
  stored : n.store.lookup (Key.blockHash t.hash) = some (serializeBlock t)

section Accounts

variable {ε : Type} {m : Manager} {source : HeaderSource ε} {now : ℕ → ℤ} {fuel : ℕ} {t : Block}
  {n : Node}

/-- The tip of a chain is stored. -/
theorem tipStored_of_run {allowed : Node → ℤ → Block → Prop} {g : Block} {rest : List Block}
    (h : Run m allowed g (t :: rest) n)
    (hallowed : ∀ n now b, allowed n now b → 0 < b.header.height) : TipStored n t := by
  obtain ⟨-, hholds⟩ := h.holds hallowed
  exact ⟨hholds.tip rfl, hholds.stored t List.mem_cons_self⟩

theorem TipStored.run_tipBlock (h : TipStored n t) (hlimits : t.InLimits) :
    Manager.tipBlock.run exec n = (.ok t, n) :=
  NevelCore.run_tipBlock h.tip
    (getBlock_eq_ok.mpr ⟨_, h.stored, deserializeBlock_serializeBlock hlimits⟩)

theorem TipStored.run_tipBlock_error (h : TipStored n t) (hlimits : ¬ t.InLimits) :
    ∃ e, Manager.tipBlock.run exec n = (.error (.error e), n) := by
  obtain ⟨e, he⟩ := deserializeBlock_serializeBlock_error hlimits
  refine ⟨e, run_tipBlock_of_unreadable h.tip ?_⟩
  rw [DB.getBlock, h.stored]
  exact he

theorem run_headerFirstSync_of_headers (m : Manager) (now : ℕ → ℤ) (fuel : ℕ) (h : TipStored n t)
    (hlimits : t.InLimits) {headers : List BlockHeader}
    (hheaders : source.headers [t.hash] Bytes32.zero = .ok headers) :
    (headerFirstSync source now fuel (some m)).run exec n =
      (syncBlocks m source now fuel 0 headers ⟨headers.length, 0, t.header.height⟩
        t.hash).run exec n := by
  rw [headerFirstSync, Prog.run_bind, Prog.run_result, h.run_tipBlock hlimits]
  dsimp only
  rw [hheaders]

/-- Without headers nothing happens, and the result is zero. -/
theorem run_headerFirstSync_of_none (h : TipStored n t)
    (hnone : ¬ (t.InLimits ∧ ∃ headers, source.headers [t.hash] Bytes32.zero = .ok headers)) :
    ∃ err, (headerFirstSync source now fuel (some m)).run exec n =
      (.ok (.zero, some err), n) := by
  rw [headerFirstSync, Prog.run_bind, Prog.run_result]
  by_cases hlimits : t.InLimits
  · rw [h.run_tipBlock hlimits]
    dsimp only
    cases hheaders : source.headers [t.hash] Bytes32.zero with
    | error e => exact ⟨_, rfl⟩
    | ok headers => exact absurd ⟨hlimits, headers, hheaders⟩ hnone
  · obtain ⟨e, he⟩ := h.run_tipBlock_error hlimits
    rw [he]
    exact ⟨_, rfl⟩

/-- `HeaderFirstSync` returns, and its result is exact if the tip can be read and the request for
headers is answered, whatever else the source does. Otherwise it is exact only at height zero. -/
theorem accounted_iff (m : Manager) (source : HeaderSource ε) (now : ℕ → ℤ) (fuel : ℕ)
    (h : TipStored n t)
    (hinj : ∀ header ∈ source.received t, ∀ k b, source.block k header.hash = .ok b →
      b.header.hash = header.hash → b.header = header) :
    ∃ result err n', (headerFirstSync source now fuel (some m)).run exec n =
        (.ok (result, err), n') ∧
      (Accounted source t n result n' ↔
        (t.InLimits ∧ ∃ headers, source.headers [t.hash] Bytes32.zero = .ok headers) ∨
          t.header.height = 0) := by
  by_cases hanswer : t.InLimits ∧ ∃ headers, source.headers [t.hash] Bytes32.zero = .ok headers
  · obtain ⟨hlimits, headers, hheaders⟩ := hanswer
    have hreceived : source.received t = headers := by
      rw [HeaderSource.received, hheaders]
      rfl
    rw [hreceived] at hinj
    obtain ⟨result, err, n', hloop⟩ := syncBlocks_returns m source now fuel headers 0
      ⟨headers.length, 0, t.header.height⟩ t.hash n
    have hrun := (run_headerFirstSync_of_headers m now fuel h hlimits hheaders).trans hloop
    obtain ⟨blocks, happlied, hcount, htop⟩ := syncBlocks_spec h.tip rfl hinj hloop
    refine ⟨result, err, n', hrun, fun _ ↦ .inl ⟨hlimits, headers, hheaders⟩, fun _ ↦ ?_⟩
    refine ⟨blocks, (hcount.trans (Nat.zero_add _)).symm, hreceived ▸ happlied, ?_, htop, ?_⟩
    · rw [happlied.store]
      exact tip_foldl_extend blocks h.tip
    · rw [happlied.store]
      exact utxos_foldl_extend blocks n.store
  · obtain ⟨err, hrun⟩ := run_headerFirstSync_of_none h hanswer
    refine ⟨.zero, some err, n, hrun, ?_, ?_⟩
    · rintro ⟨blocks, hcount, -, -, htop, -⟩
      obtain rfl := List.length_eq_zero_iff.mp hcount
      exact .inr htop.symm
    · intro hcondition
      have hzero := hcondition.resolve_left hanswer
      exact ⟨[], rfl, .nil source 0 _ t _, h.tip, hzero.symm, rfl⟩

end Accounts

namespace Sample

/-- A source that answers with one block. -/
def oneBlock (b : Block) : HeaderSource Unit where
  headers _ _ := .ok [b.header]
  block _ _ := .ok b

/-- A source that does not answer. -/
def silent : HeaderSource Unit where
  headers _ _ := .error ()
  block _ _ := .error ()

end Sample

theorem accounted_regtest :
    ∃ result err n', (headerFirstSync (Sample.oneBlock Regtest.blockA) (fun _ ↦ 1790000000) 1
        (some Regtest.manager)).run exec Regtest.afterGenesis = (.ok (result, err), n') ∧
      Accounted (Sample.oneBlock Regtest.blockA) Regtest.genesis Regtest.afterGenesis result n' := by
  have hrun : Run Regtest.manager PositiveHeight Regtest.genesis [Regtest.genesis]
    Regtest.afterGenesis := .start Regtest.starts
  have hinj : ∀ header ∈ (Sample.oneBlock Regtest.blockA).received Regtest.genesis, ∀ k b,
      (Sample.oneBlock Regtest.blockA).block k header.hash = .ok b →
      b.header.hash = header.hash → b.header = header := by
    intro header hheader k b hb hhash
    cases List.mem_singleton.mp hheader
    cases hb
    rfl
  obtain ⟨result, err, n', hcall, hiff⟩ := accounted_iff Regtest.manager
    (Sample.oneBlock Regtest.blockA) (fun _ ↦ 1790000000) 1
    (tipStored_of_run hrun fun _ _ _ h ↦ h) hinj
  exact ⟨result, err, n', hcall, hiff.mpr (.inl ⟨Regtest.genesis_inLimits, _, rfl⟩)⟩

/-- Above genesis the request for headers fails, and the result says height zero. -/
theorem headers_refused :
    Run Regtest.manager PositiveHeight Regtest.genesis [Regtest.blockA, Regtest.genesis]
      Regtest.afterA ∧
    (headerFirstSync Sample.silent (fun _ ↦ 1790000000) 1 (some Regtest.manager)).run exec
      Regtest.afterA = (.ok (.zero, some (.source ())), Regtest.afterA) ∧
    DB.tip Regtest.afterA.store = .ok Regtest.blockA.hash ∧
    Regtest.blockA.header.height = 1 ∧
    ¬ Accounted Sample.silent Regtest.blockA Regtest.afterA .zero Regtest.afterA := by
  have hrun : Run Regtest.manager PositiveHeight Regtest.genesis [Regtest.blockA, Regtest.genesis]
    Regtest.afterA := Regtest.runA Regtest.validOn_blockA.height
  have hstored := tipStored_of_run hrun fun _ _ _ h ↦ h
  refine ⟨hrun, ?_, hstored.tip, rfl, ?_⟩
  · rw [headerFirstSync, Prog.run_bind, Prog.run_result,
      hstored.run_tipBlock Regtest.blockA_inLimits]
    rfl
  · rintro ⟨blocks, hcount, -, -, htop, -⟩
    obtain rfl := List.length_eq_zero_iff.mp hcount
    exact absurd htop (by decide)

end NevelCore.Sync
