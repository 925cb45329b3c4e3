import NevelCore.Chain.Conservation
import NevelCore.Chain.Mining
import NevelCore.Foundations.TextNumerals
import NevelCore.Wallet.Address

/-!
# Mining many blocks

`MineBlocksStreaming` and `MineBlocks`: the loop that builds a block on the tip, mines it, submits
it and reports it. What the clock shows and how the pool is listed may differ from round to round,
and a round may end the loop: the tip cannot be read, the context is done, or the block is refused.

One round extends the chain by the block it reports or leaves the node as it was
(`mineRound_cases`).
So however the loop ends, the blocks that were reported are exactly those that the chain has grown
by, in order and with consecutive heights; the summary has their number, the first and the last of
them, and the last one is the tip of the store (`mineBlocksStreaming_account`).
-/

set_option autoImplicit false
set_option relaxedAutoImplicit false

namespace NevelCore

open Foundations

/-- `Tip`: what is reported of a block. The hash is in hexadecimal form. -/
structure Tip where
  hash : List UInt8
  height : UInt64
  bits : UInt32
  timestamp : Int64
deriving DecidableEq

/-- The zero value of `Tip`. -/
def Tip.zero : Tip := ⟨[], 0, 0, 0⟩

/-- The `Tip` of a block. -/
def Block.toTip (b : Block) : Tip :=
  ⟨encodeHex b.hash.toList, b.header.height, b.header.bits, b.header.timestamp⟩

structure MiningSummary where
  blocks : UInt64
  first : Tip
  last : Tip
deriving DecidableEq

/-- The zero value of `MiningSummary`. -/
def MiningSummary.zero : MiningSummary := ⟨0, .zero, .zero⟩

/-- One more block. -/
def MiningSummary.add (summary : MiningSummary) (tip : Tip) : MiningSummary where
  blocks := summary.blocks + 1
  first := if summary.blocks = 0 then tip else summary.first
  last := tip

/-- What a round meets: the clock, how often the miner looks before the context is done, and the
orders in which the pool is listed. -/
structure Round where
  coinbaseNow : Int64
  headerNow : Int64
  now : ℤ
  fuel : ℕ
  polls : ℕ
  order : MapOrder fun _ : Hash ↦ Entry
  sort : SliceSort Entry

/-- The transactions that `BuildTemplate` takes from the pool. -/
def Round.snapshot (round : Round) (n : Node) : List Transaction :=
  match n.mempool with
  | none => []
  | some pool => pool.snapshot round.order round.sort

/-- Why mining stops. -/
inductive MineError where
  | noBlocks
  | address (e : Wallet.WalletError)
  | stopped (halt : Halt)

/-- What mining leaves: the summary, the blocks reported to `onBlock`, and how it ends. -/
structure Mined where
  summary : MiningSummary
  reported : List Tip
  result : Except MineError Unit
  node : Node

section Loop

variable (m : Manager) (script : Bytes)

/-- A round of the loop. -/
def mineRound (round : Round) (n : Node) : Except Halt Block × Node :=
  (m.mineBlock round.coinbaseNow round.headerNow round.now round.fuel round.polls
    (round.snapshot n) script).run exec n

/-- The loop of `MineBlocksStreaming`, from round number `i` on. -/
def mineLoop (rounds : ℕ → Round) : ℕ → ℕ → MiningSummary → List Tip → Node → Mined
  | _, 0, summary, reported, n => ⟨summary, reported, .ok (), n⟩
  | i, left + 1, summary, reported, n =>
    match mineRound m script (rounds i) n with
    | (.error halt, n') => ⟨summary, reported, .error (.stopped halt), n'⟩
    | (.ok b, n') =>
      mineLoop rounds (i + 1) left (summary.add b.toTip) (reported ++ [b.toTip]) n'

end Loop

/-- `MineBlocksStreaming`. -/
def mineBlocksStreaming (m : Manager) (maps : Wallet.CaseMaps) (addressPrefix : List UInt8)
    (rounds : ℕ → Round) (count : ℤ) (address : List UInt8) (n : Node) : Mined :=
  if count < 1 then ⟨.zero, [], .error .noBlocks, n⟩
  else match Wallet.lockingScriptForAddress maps address addressPrefix with
    | .error e => ⟨.zero, [], .error (.address e), n⟩
    | .ok script => mineLoop m script rounds 0 count.toNat .zero [] n

/-- `MineBlocks`: the blocks that are reported, with the error. -/
def mineBlocks (m : Manager) (maps : Wallet.CaseMaps) (addressPrefix : List UInt8)
    (rounds : ℕ → Round) (count : ℤ) (address : List UInt8) (n : Node) :
    List Tip × Except MineError Unit × Node :=
  if count < 1 then ([], .error .noBlocks, n)
  else
    let mined := mineBlocksStreaming m maps addressPrefix rounds count address n
    (mined.reported, mined.result, mined.node)

/-! ### One round -/

section Round

variable {m : Manager} {g t : Block} {rest : List Block} {n : Node}

theorem Run.height_eq (h : Run m PositiveHeight g (t :: rest) n) :
    t.header.height.toNat = rest.length :=
  ((h.holds fun _ _ _ h ↦ h).1.branch h.genesis.height).height_eq (List.suffix_refl _)

theorem height_add_one_pos {height : UInt64} {k : ℕ} (h : height.toNat = k) (hk : k + 1 < 2 ^ 64) :
    0 < height + 1 := by
  rw [UInt64.lt_iff_toNat_lt, UInt64.toNat_add, h]
  change 0 < (k + 1) % 2 ^ 64
  rw [Nat.mod_eq_of_lt hk]
  exact Nat.succ_pos k

/-- A block that is accepted on top of a readable tip becomes the tip of the run. -/
theorem Run.extend_of_tip {now : ℤ} {fuel : ℕ} {b : Block}
    (h : Run m PositiveHeight g (t :: rest) n) (hread : DB.getBlock n.store t.hash = .ok t)
    (hlink : b.header.prevHash = t.hash) (hheight : 0 < b.header.height) :
    (∃ halt, (m.validateAndApplyBlock now fuel b).run exec n = (.error halt, n)) ∨
      ∃ n', (m.validateAndApplyBlock now fuel b).run exec n = (.ok (), n') ∧
        Run m PositiveHeight g (b :: t :: rest) n' := by
  obtain ⟨-, hholds⟩ := h.holds fun _ _ _ h ↦ h
  have htip : DB.tip n.store = .ok b.header.prevHash := by rw [hholds.tip rfl, hlink]
  obtain ⟨⟨r, n'⟩, hcall⟩ : ∃ result, (m.validateAndApplyBlock now fuel b).run exec n = result :=
    ⟨_, rfl⟩
  rcases validateAndApplyBlock_cases hcall with ⟨e, -, rfl, rfl⟩ | ⟨hcheck, -⟩
  · exact .inl ⟨e, hcall⟩
  · obtain ⟨n', hcall, hstore, -⟩ := run_validateAndApplyBlock_of_tip fuel hcheck htip
    refine .inr ⟨n', hcall, ?_⟩
    have hne : DB.tip n.store ≠ .ok b.hash := by
      -- the block is not known yet, and the tip is
      obtain ⟨⟨e, hunknown⟩, -⟩ := checkBlock_ok hcheck
      intro heq
      rw [hholds.tip rfl] at heq
      rw [← Except.ok.inj heq, hread] at hunknown
      cases hunknown
    have hrun := Run.call h hheight hcall nofun
    rwa [tipsAfter, if_pos ⟨hne, by rw [hstore, DB.tip_extend]⟩] at hrun

/-- A round reports the block that it has put on top of the tip, or it changes nothing. -/
theorem mineRound_cases (h : Run m PositiveHeight g (t :: rest) n)
    (hlength : rest.length + 1 < 2 ^ 64) (script : Bytes) (round : Round) :
    (∃ halt, mineRound m script round n = (.error halt, n)) ∨
      ∃ b n', mineRound m script round n = (.ok b, n') ∧
        Run m PositiveHeight g (b :: t :: rest) n' := by
  obtain ⟨hchain, hholds⟩ := h.holds fun _ _ _ h ↦ h
  have hg := h.genesis.height
  have htip := hholds.tip rfl
  cases hread : DB.getBlock n.store t.hash with
  | error e =>
    refine .inl ⟨.error e, ?_⟩
    rw [mineRound, Manager.mineBlock, Manager.buildTemplate]
    exact Prog.run_bind_of_error (Prog.run_bind_of_error (run_tipBlock_of_unreadable htip hread))
  | ok t' =>
    obtain ⟨hmem, hhash, hlimits⟩ := hholds.mem_of_getBlock hread
    obtain rfl : t' = t := hchain.hash_inj hmem List.mem_cons_self hhash
    obtain ⟨bits, hbits⟩ := hholds.exists_expectedBits hchain hg hlimits
    have hbuild := run_buildTemplate htip hread hbits round.coinbaseNow round.headerNow
      (round.snapshot n) script
    rw [mineRound, Manager.mineBlock, Prog.run_bind_of_ok hbuild]
    have hprev : (templateOn t' bits round.coinbaseNow round.headerNow (round.snapshot n)
        script).header.prevHash = t'.hash := rfl
    have hnext : 0 < (templateOn t' bits round.coinbaseNow round.headerNow (round.snapshot n)
        script).header.height := height_add_one_pos h.height_eq hlength
    generalize templateOn t' bits round.coinbaseNow round.headerNow (round.snapshot n) script =
      template at hprev hnext ⊢
    cases hmine : mine round.polls template (compactToBig template.header.bits) with
    | none => exact .inl ⟨.error .contextDone, rfl⟩
    | some b =>
      obtain ⟨nonce, rfl⟩ := mine_eq_some hmine
      have hlink : (template.withNonce nonce).header.prevHash = t'.hash := hprev
      rcases h.extend_of_tip hread hlink hnext with ⟨halt, hcall⟩ | ⟨n', hcall, hrun⟩
      · exact .inl ⟨halt, Prog.run_bind_of_error hcall⟩
      · exact .inr ⟨_, n', Prog.run_bind_of_ok hcall, hrun⟩

end Round

/-! ### The loop -/

/-- The last of some blocks, as it is reported. -/
def lastTip (mined : List Block) : Tip := (mined.getLast?.map Block.toTip).getD .zero

/-- The first of some blocks, as it is reported. -/
def firstTip (mined : List Block) : Tip := (mined.head?.map Block.toTip).getD .zero

/-- The summary of some blocks. -/
def summaryOf (mined : List Block) : MiningSummary :=
  ⟨UInt64.ofNat mined.length, firstTip mined, lastTip mined⟩

theorem summaryOf_add {mined : List Block} (hlength : mined.length < 2 ^ 64) (b : Block) :
    (summaryOf mined).add b.toTip = summaryOf (mined ++ [b]) := by
  have hblocks : (summaryOf mined).blocks + 1 = UInt64.ofNat (mined ++ [b]).length := by
    rw [List.length_append, List.length_singleton, UInt64.ofNat_add]
    rfl
  have hfirst : (if (summaryOf mined).blocks = 0 then b.toTip else (summaryOf mined).first) =
      firstTip (mined ++ [b]) := by
    cases mined with
    | nil => rfl
    | cons first mined =>
      refine if_neg fun hzero ↦ ?_
      have hcount := congrArg UInt64.toNat hzero
      rw [summaryOf, UInt64.toNat_ofNat_of_lt' hlength] at hcount
      exact absurd hcount (Nat.succ_ne_zero _)
  have hlast : b.toTip = lastTip (mined ++ [b]) := by
    rw [lastTip, List.getLast?_append, List.getLast?_singleton]
    rfl
  rw [MiningSummary.add, hblocks, hfirst, hlast]
  rfl

section Account

variable {m : Manager} {g : Block} {tips : List Block}

/-- The state after some blocks have been mined: they stand on top of the chain there was, and they
are what is reported. -/
structure Account (m : Manager) (g : Block) (tips mined : List Block) (summary : MiningSummary)
    (reported : List Tip) (n : Node) : Prop where
  run : Run m PositiveHeight g (mined.reverse ++ tips) n
  summary_eq : summary = summaryOf mined
  reported_eq : reported = mined.map Block.toTip

theorem Account.mineLoop {mined : List Block} {summary : MiningSummary} {reported : List Tip}
    {n : Node} (h : Account m g tips mined summary reported n) (script : Bytes)
    (rounds : ℕ → Round) (i : ℕ) {left : ℕ}
    (hlength : tips.length + mined.length + left < 2 ^ 64) :
    ∃ more, Account m g tips (mined ++ more)
        (mineLoop m script rounds i left summary reported n).summary
        (mineLoop m script rounds i left summary reported n).reported
        (mineLoop m script rounds i left summary reported n).node ∧
      more.length ≤ left ∧
      ((mineLoop m script rounds i left summary reported n).result = .ok () ↔
        more.length = left) := by
  induction left generalizing mined summary reported n i with
  | zero =>
    refine ⟨[], ?_, le_rfl, iff_of_true rfl rfl⟩
    rw [List.append_nil]
    exact h
  | succ left ih =>
    obtain ⟨t, rest, hcons⟩ := (h.run.holds fun _ _ _ h ↦ h).1.exists_cons
    have hrun := h.run
    rw [hcons] at hrun
    have hrest : rest.length + 1 = tips.length + mined.length := by
      rw [← List.length_cons, ← hcons, List.length_append, List.length_reverse, Nat.add_comm]
    rw [NevelCore.mineLoop]
    rcases mineRound_cases hrun (by omega) script (rounds i) with
      ⟨halt, hround⟩ | ⟨b, n', hround, hrun'⟩
    · rw [hround]
      refine ⟨[], ?_, Nat.zero_le _, iff_of_false nofun (Nat.succ_ne_zero left).symm⟩
      rw [List.append_nil]
      exact h
    · rw [hround]
      have hstep : Account m g tips (mined ++ [b]) (summary.add b.toTip)
          (reported ++ [b.toTip]) n' := by
        refine ⟨?_, ?_, ?_⟩
        · rw [List.reverse_append, List.reverse_singleton, List.append_assoc,
            List.singleton_append, hcons]
          exact hrun'
        · rw [h.summary_eq, summaryOf_add (by omega)]
        · rw [h.reported_eq, List.map_append, List.map_singleton]
      obtain ⟨more, haccount, hle, hresult⟩ := ih hstep (i + 1) (by
        rw [List.length_append, List.length_singleton]
        omega)
      refine ⟨b :: more, ?_, Nat.succ_le_succ hle, hresult.trans Nat.succ_inj.symm⟩
      rwa [List.append_assoc, List.singleton_append] at haccount

/-- The blocks have consecutive heights. -/
theorem Account.height_eq {mined : List Block} {summary : MiningSummary} {reported : List Tip}
    {n : Node} (h : Account m g tips mined summary reported n) {i : ℕ} {b : Block}
    (hb : mined[i]? = some b) : b.header.height.toNat = tips.length + i := by
  obtain ⟨hi, rfl⟩ := List.getElem?_eq_some_iff.mp hb
  have hbranch := (h.run.holds fun _ _ _ h ↦ h).1.branch h.run.genesis.height
  have hsplit : mined = mined.take i ++ mined[i] :: mined.drop (i + 1) := by
    rw [← List.drop_eq_getElem_cons hi, List.take_append_drop]
  have hreverse : mined.reverse =
      (mined.drop (i + 1)).reverse ++ mined[i] :: (mined.take i).reverse := by
    refine (congrArg List.reverse hsplit).trans ?_
    rw [List.reverse_append, List.reverse_cons, List.append_assoc, List.singleton_append]
  have hsuffix : mined[i] :: ((mined.take i).reverse ++ tips) <:+ mined.reverse ++ tips :=
    ⟨(mined.drop (i + 1)).reverse, by rw [hreverse, List.append_assoc, List.cons_append]⟩
  rw [hbranch.height_eq hsuffix, List.length_append, List.length_reverse, List.length_take,
    Nat.min_eq_left hi.le, Nat.add_comm]

/-- The last block is the tip. -/
theorem Account.tip_eq {mined : List Block} {summary : MiningSummary} {reported : List Tip}
    {n : Node} (h : Account m g tips mined summary reported n) {b : Block}
    (hb : mined.getLast? = some b) : DB.tip n.store = .ok b.hash := by
  obtain ⟨before, rfl⟩ := List.getLast?_eq_some_iff.mp hb
  refine (h.run.holds fun _ _ _ h ↦ h).2.tip (show _ = b :: (before.reverse ++ tips) from ?_)
  rw [List.reverse_append, List.reverse_singleton, List.singleton_append, List.cons_append]

theorem account_mineBlocksStreaming {n : Node} (h : Run m PositiveHeight g tips n)
    (maps : Wallet.CaseMaps) (addressPrefix : List UInt8) (rounds : ℕ → Round) {count : ℤ}
    (hcount : tips.length + count.toNat < 2 ^ 64) (address : List UInt8) :
    ∃ mined, Account m g tips mined
        (mineBlocksStreaming m maps addressPrefix rounds count address n).summary
        (mineBlocksStreaming m maps addressPrefix rounds count address n).reported
        (mineBlocksStreaming m maps addressPrefix rounds count address n).node ∧
      ((mineBlocksStreaming m maps addressPrefix rounds count address n).result = .ok () →
        1 ≤ count ∧ mined.length = count.toNat) ∧
      (1 ≤ count → mined.length = count.toNat →
        (mineBlocksStreaming m maps addressPrefix rounds count address n).result = .ok ()) := by
  have hstart : Account m g tips [] .zero [] n := ⟨h, rfl, rfl⟩
  rw [mineBlocksStreaming]
  split
  · next hlow => exact ⟨[], hstart, nofun, fun hle ↦ absurd hle (not_le.mpr hlow)⟩
  · next hlow =>
    have hle : 1 ≤ count := not_lt.mp hlow
    split
    · refine ⟨[], hstart, nofun, fun _ hnone ↦ ?_⟩
      rw [List.length_nil] at hnone
      omega
    · next script _ =>
      obtain ⟨mined, haccount, -, hresult⟩ := hstart.mineLoop script rounds 0 hcount
      exact ⟨mined, haccount, fun hok ↦ ⟨hle, hresult.mp hok⟩, fun _ ↦ hresult.mpr⟩

end Account

/-- From any state of a run of blocks of positive height, however mining ends, the blocks it has
reported are those that the chain has grown by, with consecutive heights; the summary has their
number, the first and the last of them, the last one is the tip of the store, and there is no error
exactly if at least one block was asked for and all of them were mined. -/
theorem mineBlocksStreaming_account {m : Manager} {g : Block} {tips : List Block} {n : Node}
    (h : Run m PositiveHeight g tips n) (maps : Wallet.CaseMaps) (addressPrefix : List UInt8)
    (rounds : ℕ → Round) {count : ℤ} (hcount : tips.length + count.toNat < 2 ^ 64)
    (address : List UInt8) :
    ∃ mined : List Block,
      Run m PositiveHeight g (mined.reverse ++ tips)
        (mineBlocksStreaming m maps addressPrefix rounds count address n).node ∧
      (mineBlocksStreaming m maps addressPrefix rounds count address n).reported =
        mined.map Block.toTip ∧
      (mineBlocksStreaming m maps addressPrefix rounds count address n).summary =
        ⟨UInt64.ofNat mined.length, firstTip mined, lastTip mined⟩ ∧
      (∀ i b, mined[i]? = some b → b.header.height.toNat = tips.length + i) ∧
      (∀ b, mined.getLast? = some b →
        DB.tip (mineBlocksStreaming m maps addressPrefix rounds count address n).node.store =
          .ok b.hash) ∧
      ((mineBlocksStreaming m maps addressPrefix rounds count address n).result = .ok () ↔
        1 ≤ count ∧ mined.length = count.toNat) := by
  obtain ⟨mined, haccount, hall, hok⟩ :=
    account_mineBlocksStreaming h maps addressPrefix rounds hcount address
  exact ⟨mined, haccount.run, haccount.reported_eq, haccount.summary_eq,
    fun _ _ ↦ haccount.height_eq, fun _ ↦ haccount.tip_eq, hall, fun hdone ↦ hok hdone.1 hdone.2⟩

namespace Sample

open Wallet Wallet.Sample

/-- The address of the public key hash that repeats the byte 17. -/
def minerAddress : List UInt8 := addressText nevel (List.replicate 8 [2, 4, 8, 17]).flatten

theorem lockingScript_minerAddress :
    lockingScriptForAddress asciiMaps minerAddress nevel = .ok (Regtest.script 0x11) := by
  have hwidth : (List.replicate 8 [2, 4, 8, 17]).flatten.all (fun p : UInt8 ↦ p.toNat < 2 ^ 5) := by
    decide
  have hdecode : bech32Decode asciiMaps minerAddress =
      .ok (nevel, (List.replicate 8 [2, 4, 8, 17]).flatten) :=
    bech32Decode_addressText lowerPrintable_nevel fun p hp ↦
      of_decide_eq_true (List.all_eq_true.mp hwidth p hp)
  rw [lockingScriptForAddress, decodeAddress, hdecode]
  decide +kernel

/-- A round in the second in which block A is made. -/
noncomputable def roundA : Round where
  coinbaseNow := 1790000000
  headerNow := 1790000000
  now := 1790000000
  fuel := 1
  polls := 1
  order := Mempool.someOrders.txs 0
  sort := .favouring ⟨Regtest.spendGenesis 1, 0, 0⟩

theorem mineRound_roundA : mineRound Regtest.manager (Regtest.script 0x11) roundA
    Regtest.afterGenesis = (.ok Regtest.blockA, Regtest.afterA) := Regtest.mineNow_blockA

end Sample

/-- Asked for one block on top of the genesis block, block A is mined and reported. -/
theorem mineBlocksStreaming_account_regtest :
    (mineBlocksStreaming Regtest.manager Wallet.Sample.asciiMaps Wallet.Sample.nevel
        (fun _ ↦ Sample.roundA) 1 Sample.minerAddress Regtest.afterGenesis).reported =
      [Regtest.blockA.toTip] ∧
    ∃ mined : List Block,
      Run Regtest.manager PositiveHeight Regtest.genesis (mined.reverse ++ [Regtest.genesis])
        (mineBlocksStreaming Regtest.manager Wallet.Sample.asciiMaps Wallet.Sample.nevel
          (fun _ ↦ Sample.roundA) 1 Sample.minerAddress Regtest.afterGenesis).node ∧
      (mineBlocksStreaming Regtest.manager Wallet.Sample.asciiMaps Wallet.Sample.nevel
        (fun _ ↦ Sample.roundA) 1 Sample.minerAddress Regtest.afterGenesis).reported =
          mined.map Block.toTip := by
  constructor
  · rw [mineBlocksStreaming, if_neg (by decide), Sample.lockingScript_minerAddress]
    change (mineLoop _ _ _ 0 1 _ _ _).reported = _
    rw [mineLoop, Sample.mineRound_roundA]
    rfl
  · obtain ⟨mined, hrun, hreported, -⟩ := mineBlocksStreaming_account
      (Run.start Regtest.starts : Run Regtest.manager PositiveHeight Regtest.genesis _ _)
      Wallet.Sample.asciiMaps Wallet.Sample.nevel (fun _ ↦ Sample.roundA)
      (show [Regtest.genesis].length + (1 : ℤ).toNat < 2 ^ 64 by decide) Sample.minerAddress
    exact ⟨mined, hrun, hreported⟩

end NevelCore
