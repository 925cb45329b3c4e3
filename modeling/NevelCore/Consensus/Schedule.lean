import NevelCore.Consensus.Difficulty

/-!
# Chains on schedule

A chain whose blocks come exactly at the target spacing, each with the bits that `ExpectedBits`
returns (`OnSchedule`). A window is measured from its first block to its last one, which are 719
spacings apart (`find_back`), and compared with the time of 720. So each retarget lowers the target
by a 720th (`retargetedBits_window`). `onSchedule_bits_iff` says that a chain on schedule keeps the
bits of genesis exactly up to its first retarget.
-/

set_option autoImplicit false
set_option relaxedAutoImplicit false

namespace NevelCore

open Foundations

/-- `HeaderByHeight` on the headers of a chain, the newest first. -/
def headerIn {S : Signature} (chain : List BlockHeader) (height : UInt64) :
    Prog S Halt BlockHeader :=
  match chain.find? fun h ↦ h.height = height with
  | some h => pure h
  | none => raise .notFound

/-- What `ExpectedBits` returns on top of the chain `prev :: rest`. -/
def nextBits (net : Network) (prev : BlockHeader) (rest : List BlockHeader) : Except Halt UInt32 :=
  ((expectedBits prev net (headerIn (prev :: rest))).run noCalls ()).1

/-- The headers of a chain on schedule, the newest first. -/
inductive OnSchedule (net : Network) : List BlockHeader → Prop where
  | genesis {g : BlockHeader} (height : g.height = 0) (bits : g.bits = net.genesisBits) :
      OnSchedule net [g]
  | next {h prev : BlockHeader} {rest : List BlockHeader} (chain : OnSchedule net (prev :: rest))
      (height : h.height = prev.height + 1)
      (timestamp : h.timestamp = prev.timestamp + targetBlockSec)
      (bits : nextBits net prev rest = .ok h.bits) : OnSchedule net (h :: prev :: rest)

namespace OnSchedule

variable {net : Network} {prev : BlockHeader} {rest : List BlockHeader}

theorem height_eq (h : OnSchedule net (prev :: rest)) :
    prev.height = UInt64.ofNat rest.length := by
  generalize hchain : prev :: rest = chain at h
  induction h generalizing prev rest with
  | genesis height bits =>
    cases hchain
    exact height
  | next chain height timestamp bits ih =>
    cases hchain
    rw [height, ih rfl, List.length_cons, UInt64.ofNat_add]
    rfl

/-- The header some blocks back is found by its height, and as many spacings earlier. -/
theorem find_back (h : OnSchedule net (prev :: rest)) {k : ℕ} (hk : k ≤ rest.length)
    (hlt : k < 2 ^ 64) :
    ∃ first, (prev :: rest).find? (fun h ↦ h.height = prev.height - UInt64.ofNat k) = some first ∧
      prev.timestamp - first.timestamp = targetBlockSec * Int64.ofNat k := by
  induction k generalizing prev rest with
  | zero =>
    refine ⟨prev, List.find?_cons_of_pos ?_, ?_⟩
    · simp
    · simp
  | succ k ih =>
    cases h with
    | genesis height bits => cases hk
    | @next _ parent older chain height timestamp bits =>
      obtain ⟨first, hfirst, helapsed⟩ := ih chain (Nat.le_of_succ_le_succ hk) (by omega)
      have hheight : prev.height - UInt64.ofNat (k + 1) = parent.height - UInt64.ofNat k := by
        rw [height, UInt64.ofNat_add]
        grind
      have hne : ¬ prev.height = prev.height - UInt64.ofNat (k + 1) := by
        intro heq
        have hzero : UInt64.ofNat (k + 1) = 0 := by grind
        have hnat := congrArg UInt64.toNat hzero
        rw [UInt64.toNat_ofNat_of_lt' hlt] at hnat
        cases hnat
      refine ⟨first, ?_, ?_⟩
      · rw [List.find?_cons_of_neg (by simpa using hne), hheight]
        exact hfirst
      · rw [timestamp, Int64.ofNat_add]
        grind

end OnSchedule

/-! ### One window -/

/-- The target after a window on schedule, rounded down twice. -/
theorem retargetedBits_window {target limit : ℤ} (hnonneg : 0 ≤ target) (hle : target ≤ limit)
    (hlimit : limit ≤ maxPowLimit) :
    0 ≤ compactToBig (retargetedBits target limit 43140) ∧
      compactToBig (retargetedBits target limit 43140) ≤ target * 43140 / 43200 := by
  have htime : reckonedTime 43140 = 43140 := by decide
  have hexpected : expectedRetargetSec.toInt = 43200 := by decide
  have hdown : 0 ≤ target * 43140 / 43200 ∧ target * 43140 / 43200 ≤ target := by omega
  rw [retargetedBits, htime, hexpected, min_eq_right (hdown.2.trans hle)]
  have hgreatest := isGreatest_compactToBig_bigToCompact hdown.1
    ((hdown.2.trans (hle.trans hlimit)).trans_lt maxPowLimit_lt)
  obtain ⟨⟨m, k, -, hvalue⟩, hround⟩ := hgreatest.1
  refine ⟨?_, hround⟩
  rw [hvalue]
  positivity

section Next

variable {prev : BlockHeader} {rest : List BlockHeader} {net : Network}

/-- On top of a chain on schedule there are the same bits, or those after a window on schedule. The
first window ends at height 720. -/
theorem OnSchedule.nextBits_cases (h : OnSchedule net (prev :: rest)) :
    nextBits net prev rest = .ok prev.bits ∧ rest.length + 1 ≠ 720 ∨
      nextBits net prev rest = .ok (retargetedBits (compactToBig prev.bits) net.powLimit 43140) ∧
        720 ≤ rest.length + 1 := by
  have hheight := h.height_eq
  by_cases hwindow : (prev.height + 1) % difficultyWindow ≠ 0 ∨ prev.height + 1 = 0
  · left
    refine ⟨?_, fun hlength ↦ ?_⟩
    · rw [nextBits, expectedBits, if_pos hwindow]
      rfl
    · rw [hheight, Nat.succ.inj hlength] at hwindow
      exact absurd hwindow (by decide)
  · right
    rw [not_or, not_not] at hwindow
    -- a height that is a multiple of the window and not zero is at least one window
    have hlength : 720 ≤ rest.length + 1 := by
      have hmod := congrArg UInt64.toNat hwindow.1
      have hne : (prev.height + 1).toNat ≠ 0 := fun hzero ↦ hwindow.2 (UInt64.toNat_inj.mp hzero)
      have hle : (prev.height + 1).toNat ≤ rest.length + 1 := by
        have hnext : prev.height + 1 = UInt64.ofNat (rest.length + 1) := by
          rw [hheight, UInt64.ofNat_add]
          rfl
        rw [hnext, UInt64.toNat_ofNat']
        exact Nat.mod_le _ _
      rw [UInt64.toNat_mod] at hmod
      change (prev.height + 1).toNat % 720 = 0 at hmod
      omega
    refine ⟨?_, hlength⟩
    obtain ⟨first, hfirst, helapsed⟩ := h.find_back (k := 719) (by omega) (by decide)
    have hback : prev.height + 1 - difficultyWindow = prev.height - UInt64.ofNat 719 := by
      change prev.height + 1 - 720 = prev.height - 719
      grind
    have hfound : (headerIn (prev :: rest) (prev.height + 1 - difficultyWindow)).run noCalls () =
        (.ok first, ()) := by
      rw [headerIn, hback, hfirst]
      rfl
    have htime : (targetBlockSec * Int64.ofNat 719).toInt = 43140 := by decide
    rw [nextBits, expectedBits_of_retarget prev first net hwindow.1 hwindow.2 hfound, helapsed,
      htime]

/-- A chain on schedule goes on. -/
theorem OnSchedule.exists_next (h : OnSchedule net (prev :: rest)) :
    ∃ b, OnSchedule net (b :: prev :: rest) ∧ nextBits net prev rest = .ok b.bits := by
  obtain ⟨bits, hbits⟩ : ∃ bits, nextBits net prev rest = .ok bits := by
    rcases h.nextBits_cases with ⟨hsame, -⟩ | ⟨hwindow, -⟩
    · exact ⟨_, hsame⟩
    · exact ⟨_, hwindow⟩
  let b : BlockHeader := { prev with
    height := prev.height + 1
    timestamp := prev.timestamp + targetBlockSec
    bits := bits }
  exact ⟨b, h.next rfl rfl hbits, hbits⟩

/-- There are chains on schedule of every length on a genesis block. -/
theorem OnSchedule.exists_length {g : BlockHeader} (hheight : g.height = 0)
    (hbits : g.bits = net.genesisBits) (n : ℕ) :
    ∃ prev rest, OnSchedule net (prev :: rest) ∧ rest.length = n ∧
      (prev :: rest).getLast? = some g := by
  induction n with
  | zero => exact ⟨g, [], .genesis hheight hbits, rfl, rfl⟩
  | succ n ih =>
    obtain ⟨prev, rest, hchain, hlength, hlast⟩ := ih
    obtain ⟨b, hnext, -⟩ := hchain.exists_next
    refine ⟨b, prev :: rest, hnext, congrArg (· + 1) hlength, ?_⟩
    rw [List.getLast?_cons_cons]
    exact hlast

end Next

/-! ### Whole chains -/

section Bits

variable {name : String} {prev : BlockHeader} {rest : List BlockHeader}

/-- The bits of a chain on schedule: those of genesis up to the first retarget, and a smaller target
from then on. -/
theorem OnSchedule.bits_cases (h : OnSchedule (networkByName name) (prev :: rest)) :
    rest.length < 720 ∧ prev.bits = (networkByName name).genesisBits ∨
      720 ≤ rest.length ∧ 0 ≤ compactToBig prev.bits ∧
        compactToBig prev.bits < (networkByName name).powLimit := by
  have hpos := networkByName_powLimit_pos name
  have hmax := networkByName_powLimit_le name
  have hgenesis := compactToBig_genesisBits name
  generalize hchain : prev :: rest = chain at h
  induction h generalizing prev rest with
  | genesis height bits =>
    cases hchain
    exact .inl ⟨by decide, bits⟩
  | @next h parent older chain height timestamp bits ih =>
    cases hchain
    rw [List.length_cons]
    rcases chain.nextBits_cases with ⟨hsame, hlength⟩ | ⟨hwindow, hlength⟩
    · rw [← Except.ok.inj (hsame.symm.trans bits)]
      rcases ih rfl with ⟨hbefore, heq⟩ | ⟨hafter, hbounds⟩
      · exact .inl ⟨by omega, heq⟩
      · exact .inr ⟨by omega, hbounds⟩
    · rw [← Except.ok.inj (hwindow.symm.trans bits)]
      have htarget : 0 ≤ compactToBig parent.bits ∧
          compactToBig parent.bits ≤ (networkByName name).powLimit := by
        rcases ih rfl with ⟨-, heq⟩ | ⟨-, hbounds⟩
        · rw [heq, hgenesis]
          exact ⟨hpos.le, le_refl _⟩
        · exact ⟨hbounds.1, hbounds.2.le⟩
      obtain ⟨hnonneg, hdown⟩ := retargetedBits_window htarget.1 htarget.2 hmax
      exact .inr ⟨hlength, hnonneg, by omega⟩

/-- A chain on schedule asks for the bits of genesis if and only if its next block is below height
720, where the first retarget is. -/
theorem onSchedule_bits_iff (h : OnSchedule (networkByName name) (prev :: rest)) :
    nextBits (networkByName name) prev rest = .ok (networkByName name).genesisBits ↔
      rest.length + 1 < 720 := by
  obtain ⟨b, hchain, hbits⟩ := h.exists_next
  rw [hbits]
  rcases hchain.bits_cases with ⟨hbefore, heq⟩ | ⟨hafter, -, hless⟩
  · exact iff_of_true (congrArg Except.ok heq) hbefore
  · refine iff_of_false (fun heq ↦ ?_) (not_lt.mpr hafter)
    rw [Except.ok.inj heq, compactToBig_genesisBits] at hless
    exact lt_irrefl _ hless

end Bits

/-- A chain of the genesis header. -/
theorem onSchedule_genesis (name : String) :
    OnSchedule (networkByName name) [(createGenesisBlock (networkByName name)).header] :=
  .genesis rfl rfl

theorem onSchedule_bits_second :
    nextBits (networkByName "mainnet") (createGenesisBlock (networkByName "mainnet")).header [] =
      .ok (networkByName "mainnet").genesisBits :=
  (onSchedule_bits_iff (onSchedule_genesis "mainnet")).mpr (by decide)

/-- At height 720 of a chain on schedule on the main network the bits are `0x1d00ffa3` instead of
`0x1d00ffff`. -/
theorem onSchedule_bits_drift :
    mainnet.genesisBits = 0x1d00ffff ∧ ∃ prev rest, OnSchedule mainnet (prev :: rest) ∧
      (prev :: rest).getLast? = some (createGenesisBlock mainnet).header ∧ rest.length = 719 ∧
      nextBits mainnet prev rest = .ok 0x1d00ffa3 := by
  obtain ⟨prev, rest, hchain, hlength, hlast⟩ :=
    @OnSchedule.exists_length mainnet (createGenesisBlock mainnet).header rfl rfl 719
  refine ⟨rfl, prev, rest, hchain, hlast, hlength, ?_⟩
  have hbits : prev.bits = mainnet.genesisBits := by
    have hname : networkByName "mainnet" = mainnet := by decide
    rw [← hname] at hchain ⊢
    rcases hchain.bits_cases with ⟨-, hbits⟩ | ⟨hafter, -⟩
    · exact hbits
    · omega
  rcases hchain.nextBits_cases with ⟨-, hbefore⟩ | ⟨hwindow, -⟩
  · omega
  · rw [hwindow, hbits]
    decide

end NevelCore
