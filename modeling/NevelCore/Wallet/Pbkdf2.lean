import Mathlib.Logic.Function.Iterate
import NevelCore.Foundations.Sha256
import NevelCore.Foundations.SliceMemory

/-!
# Keys from passphrases

`pbkdf2SHA256` of `wallet/pbkdf2_internal.go`. It appends the first value of each block to the
output, and then folds the later values into the tail of the output in place. A second buffer is
used again and again for these values.

The two loops are a machine: a state is a call at the condition of one of the loops, with all its
memory, or its end (`State`), and a step is one round (`step`). The output of a state is the
finished blocks and the exclusive or of the values so far of the current one (`AtBlocks`,
`AtRounds`). One step keeps that (`atRounds_enterBlock`, `AtRounds.nextRound`, `AtRounds.leave`), so
every state of a run has it (`good_stateAfter`), and the run ends (`exists_returned`) unless the
counter of the rounds can never exceed the number of iterations (`pbkdf2SHA256_maxValue`).
-/

set_option autoImplicit false
set_option relaxedAutoImplicit false

namespace NevelCore.Wallet

open Foundations

namespace Pbkdf2

/-! ### The derived key -/

section Spec

variable (prf : List UInt8 → Bytes32) (salt : List UInt8)

/-- The values of the block with a number. The first is of the salt and the number, and each other
one of the one before. -/
def u (i : ℕ) : ℕ → Bytes32
  | 0 => prf (salt ++ beBytes 4 i)
  | j + 1 => prf (u i j).toList

/-- The exclusive or of the first values of the block with a number. -/
def t (iter i : ℕ) : Bytes32 := ((List.range iter).map (u prf salt i)).foldl Bytes32.xor .zero

/-- The first blocks, one after the other. Their numbers begin with one. -/
def blocks (iter count : ℕ) : List UInt8 :=
  (List.range count).flatMap fun i ↦ (t prf salt iter (i + 1)).toList

/-- The derived key of some length: the beginning of as many blocks as are needed. -/
def derivedKey (iter keyLen : ℕ) : List UInt8 :=
  (blocks prf salt iter ((keyLen + 31) / 32)).take keyLen

end Spec

/-! ### The code -/

/-- The variables of a call outside the loop over rounds. -/
structure Frame where
  memory : Memory UInt8
  dk : SliceRef
  U : SliceRef
  block : Int64

/-- Where a call stands: at the condition of the loop over blocks, at that of the loop over rounds,
with the variables of that loop, or at the end. -/
inductive State where
  | blocks (f : Frame)
  | rounds (f : Frame) (T : SliceRef) (n : Int64)
  | returned (memory : Memory UInt8) (result : SliceRef)
  | panicked

section Code

-- what is written to the `prf` between `Reset` and `Sum` is its argument
variable (prf : List UInt8 → Bytes32) (salt : List UInt8) (iter keyLen : Int64)

def numBlocks : Int64 := (keyLen + 32 - 1) / 32

/-- The part before the loops. -/
def start : State :=
  if numBlocks keyLen * 32 < 0 then .panicked
  else
    let (dk, memory) := SliceRef.make [] (0 : UInt8) 0 (numBlocks keyLen * 32).toInt.toNat
    let (U, memory) := SliceRef.make memory 0 32 32
    .blocks { memory := memory, dk := dk, U := U, block := 1 }

/-- The body of the loop over blocks up to the loop over rounds. -/
def enterBlock (f : Frame) : State :=
  let buf := beBytes 4 f.block.toUInt64.toUInt32.toNat
  let (dk, memory) := f.dk.append f.memory (prf (salt ++ buf)).toList
  match dk.slice (dk.length - 32) dk.length with
  | none => .panicked
  | some T => .rounds { f with memory := f.U.copy T memory, dk := dk } T 2

/-- The body of the loop over rounds. -/
def nextRound (f : Frame) (T : SliceRef) (n : Int64) : State :=
  let written := f.U.read f.memory
  match f.U.slice 0 0 with
  | none => .panicked
  | some U =>
    let (U, memory) := U.append f.memory (prf written).toList
    match SliceRef.zipInto (· ^^^ ·) T U memory with
    | none => .panicked
    | some memory => .rounds { f with memory := memory, U := U } T (n + 1)

/-- The part after the loops. -/
def finish (f : Frame) : State :=
  match f.dk.slice 0 keyLen.toInt with
  | none => .panicked
  | some result => .returned f.memory result

/-- From one condition of a loop to the next one, or to the end. -/
def step : State → State
  | .blocks f => if f.block ≤ numBlocks keyLen then enterBlock prf salt f else finish keyLen f
  | .rounds f T n =>
    if n ≤ iter then nextRound prf f T n else .blocks { f with block := f.block + 1 }
  | .returned memory result => .returned memory result
  | .panicked => .panicked

/-- The state after some steps. -/
def stateAfter (steps : ℕ) : State := (step prf salt iter keyLen)^[steps] (start keyLen)

end Code

/-- Why there is no result: the call still runs, or it has panicked. -/
inductive Unreturned where
  | running
  | panicked
deriving DecidableEq

/-- The result of a state. -/
def State.result : State → Except Unreturned (List UInt8)
  | .blocks _ => .error .running
  | .rounds _ _ _ => .error .running
  | .returned memory result => .ok (result.read memory)
  | .panicked => .error .panicked

end Pbkdf2

/-- HMAC with SHA-256, as `hmac.New(sha256.New, key)` of the standard library computes it. -/
def hmacSHA256 (key message : List UInt8) : Bytes32 :=
  let key := if 64 < key.length then (sha256 key).toList else key
  let block := key ++ List.replicate (64 - key.length) 0
  sha256 (block.map (· ^^^ 0x5c) ++ (sha256 (block.map (· ^^^ 0x36) ++ message)).toList)

/-- `pbkdf2SHA256`, after so many steps. -/
def pbkdf2SHA256 (hmac : List UInt8 → List UInt8 → Bytes32) (password salt : List UInt8)
    (iter keyLen : Int64) (steps : ℕ) : Except Pbkdf2.Unreturned (List UInt8) :=
  (Pbkdf2.stateAfter (hmac password) salt iter keyLen steps).result

namespace Pbkdf2

/-! ### What the machine holds -/

section Holds

variable (prf : List UInt8 → Bytes32) (salt : List UInt8) (iter total : ℕ)

/-- At the condition of the loop over blocks, with so many of all blocks finished. -/
structure AtBlocks (b : ℕ) (f : Frame) : Prop where
  block_eq : f.block = Int64.ofNat (b + 1)
  dk_eq : f.dk = ⟨0, 0, 32 * b, 32 * total⟩
  U_eq : f.U = ⟨1, 0, 32, 32⟩
  output : ∃ rest, rest.length = 32 * (total - b) ∧
    f.memory[0]? = some (blocks prf salt iter b ++ rest)
  scratch : ∃ value : Bytes32, f.memory[1]? = some value.toList

/-- At the condition of the loop over rounds, with so many blocks finished, and so many rounds of
the next one. -/
structure AtRounds (b r : ℕ) (f : Frame) (T : SliceRef) (n : Int64) : Prop where
  block_eq : f.block = Int64.ofNat (b + 1)
  n_eq : n = Int64.ofNat (r + 2)
  dk_eq : f.dk = ⟨0, 0, 32 * (b + 1), 32 * total⟩
  U_eq : f.U = ⟨1, 0, 32, 32⟩
  T_eq : T = ⟨0, 32 * b, 32, 32 * total - 32 * b⟩
  output : ∃ rest, rest.length = 32 * (total - (b + 1)) ∧
    f.memory[0]? = some (blocks prf salt iter b ++ (t prf salt (r + 1) (b + 1)).toList ++ rest)
  scratch : f.memory[1]? = some (u prf salt (b + 1) r).toList

end Holds

section Spec

variable {prf : List UInt8 → Bytes32} {salt : List UInt8} {iter i : ℕ}

theorem t_succ (iter : ℕ) :
    t prf salt (iter + 1) i = (t prf salt iter i).xor (u prf salt i iter) := by
  rw [t, List.range_succ, List.map_append, List.foldl_append]
  rfl

theorem zero_xor (value : Bytes32) : Bytes32.zero.xor value = value := by
  have hzero := zipWith_xor_zero value.toList
  rw [value.length_eq] at hzero
  exact Bytes32.ext hzero

theorem t_one : t prf salt 1 i = u prf salt i 0 := zero_xor _

theorem blocks_succ (count : ℕ) : blocks prf salt iter (count + 1) =
    blocks prf salt iter count ++ (t prf salt iter (count + 1)).toList := by
  rw [blocks, List.range_succ, List.flatMap_append, List.flatMap_singleton]
  rfl

theorem length_blocks (count : ℕ) : (blocks prf salt iter count).length = 32 * count := by
  induction count with
  | zero => rfl
  | succ count ih => rw [blocks_succ, List.length_append, ih, Bytes32.length_eq, Nat.mul_succ]

theorem length_derivedKey {keyLen : ℕ} : (derivedKey prf salt iter keyLen).length = keyLen := by
  rw [derivedKey, List.length_take, length_blocks]
  omega

end Spec

section Steps

variable {prf : List UInt8 → Bytes32} {salt : List UInt8} {iter keyLen : Int64} {c total b r : ℕ}
  {f : Frame} {T : SliceRef} {n : Int64}

/-- The number of a block as it is hashed. -/
theorem toNat_block (hb : b + 1 < 2 ^ 32) :
    (Int64.ofNat (b + 1)).toUInt64.toUInt32.toNat = b + 1 := by
  have hword : (Int64.ofNat (b + 1)).toUInt64 = UInt64.ofNat (b + 1) := rfl
  rw [UInt64.toNat_toUInt32, hword, UInt64.toNat_ofNat']
  omega

/-- The first value of a block is appended to the output and copied to the other buffer. -/
theorem atRounds_enterBlock (h : AtBlocks prf salt c total b f) (hb : b < total)
    (htotal : total < 2 ^ 32) :
    ∃ f' T, enterBlock prf salt f = .rounds f' T 2 ∧ AtRounds prf salt c total b 0 f' T 2 := by
  obtain ⟨rest, hrest, hout⟩ := h.output
  obtain ⟨value, hscratch⟩ := h.scratch
  have hfirst : prf (salt ++ beBytes 4 f.block.toUInt64.toUInt32.toNat) = u prf salt (b + 1) 0 := by
    rw [h.block_eq, toNat_block (by omega)]
    rfl
  have hlength := (u prf salt (b + 1) 0).length_eq
  have happend : f.dk.append f.memory (u prf salt (b + 1) 0).toList =
      (⟨0, 0, 32 * (b + 1), 32 * total⟩,
        f.memory.write 0 (32 * b) (u prf salt (b + 1) 0).toList) := by
    rw [h.dk_eq, SliceRef.append_of_le (by dsimp only; omega)]
    dsimp only
    rw [hlength, Nat.zero_add]
    rfl
  have hslice : (⟨0, 0, 32 * (b + 1), 32 * total⟩ : SliceRef).slice
      ((32 * (b + 1) : ℕ) - 32) (32 * (b + 1) : ℕ) =
        some ⟨0, 32 * b, 32, 32 * total - 32 * b⟩ := by
    rw [SliceRef.slice_of_le (by dsimp only; omega)]
    have hlow : ((32 * (b + 1) : ℕ) - 32 : ℤ).toNat = 32 * b := by omega
    have hsize : ((32 * (b + 1) : ℕ) - ((32 * (b + 1) : ℕ) - 32) : ℤ).toNat = 32 := by omega
    dsimp only
    rw [hlow, hsize, Nat.zero_add]
  -- the output after the value is appended
  have houtput : (f.memory.write 0 (32 * b) (u prf salt (b + 1) 0).toList)[0]? =
      some (blocks prf salt c b ++ (u prf salt (b + 1) 0).toList ++ rest.drop 32) := by
    have hcells : f.memory[0]? = some (blocks prf salt c b ++ rest.take 32 ++ rest.drop 32) := by
      rw [hout, List.append_assoc, List.take_append_drop]
    exact Memory.getElem?_write_self hcells (length_blocks b).symm
      (by rw [hlength, List.length_take]; omega)
  have hread : (⟨0, 32 * b, 32, 32 * total - 32 * b⟩ : SliceRef).read
      (f.memory.write 0 (32 * b) (u prf salt (b + 1) 0).toList) = (u prf salt (b + 1) 0).toList :=
    SliceRef.read_eq houtput (length_blocks b).symm hlength.symm
  refine ⟨⟨f.U.copy ⟨0, 32 * b, 32, 32 * total - 32 * b⟩
    (f.memory.write 0 (32 * b) (u prf salt (b + 1) 0).toList),
    ⟨0, 0, 32 * (b + 1), 32 * total⟩, f.U, f.block⟩, ⟨0, 32 * b, 32, 32 * total - 32 * b⟩, ?_, ?_⟩
  · rw [enterBlock, hfirst, happend]
    dsimp only
    rw [hslice]
  · refine ⟨h.block_eq, rfl, rfl, h.U_eq, rfl, ⟨rest.drop 32, ?_, ?_⟩, ?_⟩
    · rw [List.length_drop]
      omega
    · dsimp only
      rw [SliceRef.copy, Memory.getElem?_write_of_ne (by rw [h.U_eq]; decide), houtput, t_one]
    · dsimp only
      rw [SliceRef.copy, hread, h.U_eq, List.take_of_length_le hlength.le]
      have hbuffer : (f.memory.write 0 (32 * b) (u prf salt (b + 1) 0).toList)[1]? =
          some value.toList := by rw [Memory.getElem?_write_of_ne (by decide), hscratch]
      exact Memory.getElem?_write_all hbuffer (by rw [hlength, value.length_eq])

/-- The next value replaces the one before in its buffer, and is folded into the tail of the
output. -/
theorem AtRounds.nextRound (h : AtRounds prf salt c total b r f T n) :
    ∃ f', Pbkdf2.nextRound prf f T n = .rounds f' T (n + 1) ∧
      AtRounds prf salt c total b (r + 1) f' T (n + 1) := by
  obtain ⟨rest, hrest, hout⟩ := h.output
  have hlength := (u prf salt (b + 1) (r + 1)).length_eq
  have hread : f.U.read f.memory = (u prf salt (b + 1) r).toList := by
    rw [h.U_eq]
    exact SliceRef.read_all h.scratch rfl (Bytes32.length_eq _).symm
  have hnext : prf (u prf salt (b + 1) r).toList = u prf salt (b + 1) (r + 1) := rfl
  have hslice : f.U.slice 0 0 = some ⟨1, 0, 0, 32⟩ := by
    rw [h.U_eq]
    rfl
  have happend : (⟨1, 0, 0, 32⟩ : SliceRef).append f.memory (u prf salt (b + 1) (r + 1)).toList =
      (⟨1, 0, 32, 32⟩, f.memory.write 1 0 (u prf salt (b + 1) (r + 1)).toList) := by
    rw [SliceRef.append_of_le (by rw [hlength])]
    dsimp only
    rw [hlength]
  -- the buffer has the new value, and the output is as before
  have hscratch : (f.memory.write 1 0 (u prf salt (b + 1) (r + 1)).toList)[1]? =
      some (u prf salt (b + 1) (r + 1)).toList :=
    Memory.getElem?_write_all h.scratch (by rw [hlength, Bytes32.length_eq])
  have houtput : (f.memory.write 1 0 (u prf salt (b + 1) (r + 1)).toList)[0]? =
      some (blocks prf salt c b ++ (t prf salt (r + 1) (b + 1)).toList ++ rest) := by
    rw [Memory.getElem?_write_of_ne (by decide), hout]
  have hread' : (⟨1, 0, 32, 32⟩ : SliceRef).read
      (f.memory.write 1 0 (u prf salt (b + 1) (r + 1)).toList) =
        (u prf salt (b + 1) (r + 1)).toList := SliceRef.read_all hscratch rfl hlength.symm
  have harray : T.array = 0 := by rw [h.T_eq]
  have hne : T.array ≠ 1 := harray ▸ Nat.zero_ne_one
  obtain ⟨memory, hzip, hcells, hframe⟩ := SliceRef.exists_zipInto (· ^^^ ·)
    T ⟨1, 0, 32, 32⟩ (by rw [harray]; exact houtput)
    (by rw [h.T_eq, length_blocks]) (by rw [h.T_eq, Bytes32.length_eq]) (by rw [hread', hlength])
    (Bytes32.length_eq _).symm hne
  refine ⟨⟨memory, f.dk, ⟨1, 0, 32, 32⟩, f.block⟩, ?_, ?_⟩
  · rw [Pbkdf2.nextRound, hread, hslice]
    dsimp only
    rw [hnext, happend]
    dsimp only
    rw [hzip]
  · refine ⟨h.block_eq, ?_, h.dk_eq, rfl, h.T_eq, ⟨rest, hrest, ?_⟩, ?_⟩
    · rw [h.n_eq, Nat.add_right_comm, Int64.ofNat_add (r + 2) 1]
      rfl
    · rw [harray, hread'] at hcells
      rw [t_succ]
      exact hcells
    · exact (hframe 1 hne).trans hscratch

/-- After the last round the tail of the output is the block. -/
theorem AtRounds.leave (h : AtRounds prf salt c total b r f T n) (hr : r + 1 = c) :
    AtBlocks prf salt c total (b + 1) { f with block := f.block + 1 } := by
  subst hr
  obtain ⟨rest, hrest, hout⟩ := h.output
  refine ⟨?_, h.dk_eq, h.U_eq, ⟨rest, hrest, ?_⟩, ⟨_, h.scratch⟩⟩
  · dsimp only
    rw [h.block_eq, Int64.ofNat_add (b + 1) 1]
    rfl
  · rw [blocks_succ]
    exact hout

end Steps

/-! ### Counters -/

section Counters

variable {iter keyLen : Int64}

/-- The number of blocks that a key needs. -/
def blockCount (keyLen : Int64) : ℕ := (keyLen.toInt.toNat + 31) / 32

/-- A length of a key for which the numbers of its blocks fit four bytes. -/
structure KeyLength (keyLen : Int64) : Prop where
  nonneg : 0 ≤ keyLen.toInt
  le : keyLen.toInt ≤ 32 * (2 ^ 32 - 1)

theorem KeyLength.blockCount_lt (h : KeyLength keyLen) : blockCount keyLen < 2 ^ 32 := by
  obtain ⟨hnonneg, hle⟩ := h
  rw [blockCount]
  omega

theorem KeyLength.numBlocks_eq (h : KeyLength keyLen) :
    numBlocks keyLen = Int64.ofNat (blockCount keyLen) := by
  obtain ⟨hnonneg, hle⟩ := h
  obtain ⟨k, hk⟩ := Int.eq_ofNat_of_zero_le hnonneg
  have hkeyLen : keyLen = Int64.ofNat k := by
    rw [← Int64.toInt_inj, hk, Int64.toInt_ofNat_of_lt (by omega)]
  have hsum : keyLen + 32 - 1 = Int64.ofNat (k + 31) := by
    rw [Int64.ofNat_add, ← hkeyLen, Int64.sub_eq_add_neg, Int64.add_assoc]
    rfl
  have hdiv : ((k + 31 : ℕ) : ℤ).tdiv 32 = ((k + 31) / 32 : ℕ) := by
    rw [Int.tdiv_eq_ediv_of_nonneg (by omega)]
    omega
  have hthirtyTwo : (32 : Int64).toInt = 32 := by decide
  rw [numBlocks, hsum, blockCount, hk, Int.toNat_natCast, ← Int64.toInt_inj, Int64.toInt_div,
    Int64.toInt_ofNat_of_lt (by omega), Int64.toInt_ofNat_of_lt (by omega), hthirtyTwo, hdiv]
  exact Int.bmod_eq_of_le_mul_two (by omega) (by omega)

/-- The condition of the loop over blocks. -/
theorem block_le_iff (h : KeyLength keyLen) {b : ℕ} (hb : b ≤ blockCount keyLen) :
    Int64.ofNat (b + 1) ≤ numBlocks keyLen ↔ b < blockCount keyLen := by
  have hlt := h.blockCount_lt
  rw [h.numBlocks_eq, Int64.le_iff_toInt_le, Int64.toInt_ofNat_of_lt (by omega),
    Int64.toInt_ofNat_of_lt (by omega)]
  omega

/-- The condition of the loop over rounds, which for the greatest number of iterations is always
true. -/
theorem round_le_iff (hiter : 1 ≤ iter) {r : ℕ}
    (hr : r + 1 ≤ iter.toInt.toNat ∨ iter = Int64.maxValue) :
    Int64.ofNat (r + 2) ≤ iter ↔ r + 2 ≤ iter.toInt.toNat ∨ iter = Int64.maxValue := by
  by_cases hmax : iter = Int64.maxValue
  · rw [or_iff_right_of_imp fun _ ↦ hmax, hmax]
    exact iff_of_true (Int64.le_maxValue _) rfl
  · have hpos : 1 ≤ iter.toInt := Int64.le_iff_toInt_le.mp hiter
    have hlt : iter.toInt < 2 ^ 63 - 1 := by
      refine lt_of_le_of_ne (Int.le_sub_one_of_lt iter.toInt_lt) fun heq ↦ hmax ?_
      rw [← Int64.toInt_inj, heq]
      exact Int64.toInt_maxValue.symm
    rw [or_iff_left hmax] at hr ⊢
    rw [Int64.le_iff_toInt_le, Int64.toInt_ofNat_of_lt (by omega)]
    omega

end Counters

/-! ### Whole runs -/

section Runs

variable {prf : List UInt8 → Bytes32} {salt : List UInt8} {iter keyLen : Int64} {b r : ℕ}
  {f : Frame} {T : SliceRef} {n : Int64}

theorem exists_start (prf : List UInt8 → Bytes32) (salt : List UInt8) (iter : Int64)
    (h : KeyLength keyLen) :
    ∃ f, start keyLen = .blocks f ∧
      AtBlocks prf salt iter.toInt.toNat (blockCount keyLen) 0 f := by
  have hlt := h.blockCount_lt
  have hthirtyTwo : (32 : Int64).toInt = 32 := by decide
  have hcapacity : (numBlocks keyLen * 32).toInt = 32 * blockCount keyLen := by
    rw [h.numBlocks_eq, Int64.toInt_mul, Int64.toInt_ofNat_of_lt (by omega), hthirtyTwo,
      Int.mul_comm]
    exact Int.bmod_eq_of_le_mul_two (by omega) (by omega)
  have hnonneg : ¬ numBlocks keyLen * 32 < 0 := by
    rw [Int64.lt_iff_toInt_lt, hcapacity, Int64.toInt_zero]
    omega
  refine ⟨⟨[List.replicate (32 * blockCount keyLen) 0, List.replicate 32 0],
    ⟨0, 0, 0, 32 * blockCount keyLen⟩, ⟨1, 0, 32, 32⟩, 1⟩, ?_, rfl, rfl, rfl, ?_, ⟨.zero, rfl⟩⟩
  · have htoNat : (32 * (blockCount keyLen : ℤ)).toNat = 32 * blockCount keyLen := by omega
    rw [start, if_neg hnonneg, hcapacity, htoNat]
    rfl
  · exact ⟨List.replicate (32 * blockCount keyLen) 0, List.length_replicate, rfl⟩

section Steps

theorem step_blocks_of_lt (hkey : KeyLength keyLen)
    (h : AtBlocks prf salt iter.toInt.toNat (blockCount keyLen) b f) (hb : b < blockCount keyLen) :
    ∃ f' T, step prf salt iter keyLen (.blocks f) = .rounds f' T 2 ∧
      AtRounds prf salt iter.toInt.toNat (blockCount keyLen) b 0 f' T 2 := by
  have hle : f.block ≤ numBlocks keyLen := by
    rw [h.block_eq]
    exact (block_le_iff hkey hb.le).mpr hb
  rw [step, if_pos hle]
  exact atRounds_enterBlock h hb hkey.blockCount_lt

/-- After the last block the derived key is returned. -/
theorem step_blocks_of_eq (hkey : KeyLength keyLen)
    (h : AtBlocks prf salt iter.toInt.toNat (blockCount keyLen) (blockCount keyLen) f) :
    ∃ result, step prf salt iter keyLen (.blocks f) = .returned f.memory result ∧
      result.read f.memory = derivedKey prf salt iter.toInt.toNat keyLen.toInt.toNat := by
  have hle : ¬ f.block ≤ numBlocks keyLen := by
    rw [h.block_eq, block_le_iff hkey (le_refl _)]
    exact lt_irrefl _
  obtain ⟨hnonneg, -⟩ := hkey
  obtain ⟨rest, hrest, hout⟩ := h.output
  have hlength : keyLen.toInt.toNat ≤ 32 * blockCount keyLen := by
    rw [blockCount]
    omega
  have hslice : f.dk.slice 0 keyLen.toInt =
      some ⟨0, 0, keyLen.toInt.toNat, 32 * blockCount keyLen⟩ := by
    rw [h.dk_eq, SliceRef.slice_of_le (by dsimp only; omega), Int.sub_zero]
    rfl
  refine ⟨⟨0, 0, keyLen.toInt.toNat, 32 * blockCount keyLen⟩, ?_, ?_⟩
  · rw [step, if_neg hle, finish, hslice]
  · have hcells : f.memory[0]? = some (derivedKey prf salt iter.toInt.toNat keyLen.toInt.toNat ++
        ((blocks prf salt iter.toInt.toNat (blockCount keyLen)).drop keyLen.toInt.toNat ++
          rest)) := by
      rw [hout, derivedKey, ← blockCount, ← List.append_assoc, List.take_append_drop]
    exact SliceRef.read_first hcells rfl length_derivedKey.symm

theorem step_rounds_of_le (hiter : 1 ≤ iter)
    (h : AtRounds prf salt iter.toInt.toNat (blockCount keyLen) b r f T n)
    (hr : r + 2 ≤ iter.toInt.toNat ∨ iter = Int64.maxValue) :
    ∃ f', step prf salt iter keyLen (.rounds f T n) = .rounds f' T (n + 1) ∧
      AtRounds prf salt iter.toInt.toNat (blockCount keyLen) b (r + 1) f' T (n + 1) := by
  have hle : n ≤ iter := by
    rw [h.n_eq]
    exact (round_le_iff hiter (hr.imp_left Nat.le_of_succ_le)).mpr hr
  rw [step, if_pos hle]
  exact h.nextRound

theorem step_rounds_of_eq (hiter : 1 ≤ iter) (hmax : iter ≠ Int64.maxValue)
    (h : AtRounds prf salt iter.toInt.toNat (blockCount keyLen) b r f T n)
    (hr : r + 1 = iter.toInt.toNat) :
    step prf salt iter keyLen (.rounds f T n) = .blocks { f with block := f.block + 1 } := by
  have hle : ¬ n ≤ iter := by
    rw [h.n_eq, round_le_iff hiter (.inl hr.le), or_iff_left hmax]
    omega
  rw [step, if_neg hle]

end Steps

/-- What every state of a run has: in the loops, the output is the finished blocks and the exclusive
or of the values so far of the current one, and at the end it is the derived key. No state is a
panic. -/
def Good (prf : List UInt8 → Bytes32) (salt : List UInt8) (iter keyLen : Int64) : State → Prop
  | .blocks f => ∃ b ≤ blockCount keyLen,
      AtBlocks prf salt iter.toInt.toNat (blockCount keyLen) b f
  | .rounds f T n => ∃ b r, b < blockCount keyLen ∧
      (r + 1 ≤ iter.toInt.toNat ∨ iter = Int64.maxValue) ∧
      AtRounds prf salt iter.toInt.toNat (blockCount keyLen) b r f T n
  | .returned memory result =>
      result.read memory = derivedKey prf salt iter.toInt.toNat keyLen.toInt.toNat
  | .panicked => False

theorem Good.step (hiter : 1 ≤ iter) (hkey : KeyLength keyLen) {s : State}
    (h : Good prf salt iter keyLen s) :
    Good prf salt iter keyLen (step prf salt iter keyLen s) := by
  cases s with
  | blocks f =>
    obtain ⟨b, hb, hblocks⟩ := h
    rcases hb.lt_or_eq with hb | rfl
    · obtain ⟨f', T, hstep, hrounds⟩ := step_blocks_of_lt hkey hblocks hb
      have hpos : 1 ≤ iter.toInt := Int64.le_iff_toInt_le.mp hiter
      rw [hstep]
      exact ⟨b, 0, hb, .inl (by omega), hrounds⟩
    · obtain ⟨result, hstep, hread⟩ := step_blocks_of_eq hkey hblocks
      rw [hstep]
      exact hread
  | rounds f T n =>
    obtain ⟨b, r, hb, hr, hrounds⟩ := h
    by_cases hnext : r + 2 ≤ iter.toInt.toNat ∨ iter = Int64.maxValue
    · obtain ⟨f', hstep, hrounds'⟩ := step_rounds_of_le hiter hrounds hnext
      rw [hstep]
      exact ⟨b, r + 1, hb, hnext, hrounds'⟩
    · obtain ⟨hlast, hmax⟩ := not_or.mp hnext
      have heq : r + 1 = iter.toInt.toNat := by
        have hle := hr.resolve_right hmax
        omega
      rw [step_rounds_of_eq hiter hmax hrounds heq]
      exact ⟨b + 1, hb, hrounds.leave heq⟩
  | returned memory result => exact h
  | panicked => exact h

theorem stateAfter_succ (steps : ℕ) :
    stateAfter prf salt iter keyLen (steps + 1) =
      step prf salt iter keyLen (stateAfter prf salt iter keyLen steps) :=
  Function.iterate_succ_apply' _ _ _

theorem good_stateAfter (prf : List UInt8 → Bytes32) (salt : List UInt8) (hiter : 1 ≤ iter)
    (hkey : KeyLength keyLen) (steps : ℕ) :
    Good prf salt iter keyLen (stateAfter prf salt iter keyLen steps) := by
  induction steps with
  | zero =>
    obtain ⟨f, hstart, hblocks⟩ := exists_start prf salt iter hkey
    rw [stateAfter, Function.iterate_zero_apply, hstart]
    exact ⟨0, Nat.zero_le _, hblocks⟩
  | succ steps ih =>
    rw [stateAfter_succ]
    exact ih.step hiter hkey

/-- The rounds of one block, one step after the other. -/
theorem exists_rounds (hiter : 1 ≤ iter) (hkey : KeyLength keyLen) {steps : ℕ}
    (hstate : stateAfter prf salt iter keyLen steps = .blocks f)
    (h : AtBlocks prf salt iter.toInt.toNat (blockCount keyLen) b f) (hb : b < blockCount keyLen)
    (hr : r + 1 ≤ iter.toInt.toNat ∨ iter = Int64.maxValue) :
    ∃ f' T n, stateAfter prf salt iter keyLen (steps + (r + 1)) = .rounds f' T n ∧
      AtRounds prf salt iter.toInt.toNat (blockCount keyLen) b r f' T n := by
  induction r with
  | zero =>
    obtain ⟨f', T, hstep, hrounds⟩ := step_blocks_of_lt hkey h hb
    refine ⟨f', T, 2, ?_, hrounds⟩
    rw [stateAfter_succ, hstate, hstep]
  | succ r ih =>
    obtain ⟨f₁, T, n, hstate', hrounds⟩ := ih (hr.imp_left Nat.le_of_succ_le)
    obtain ⟨f₂, hstep, hrounds'⟩ := step_rounds_of_le hiter hrounds hr
    refine ⟨f₂, T, n + 1, ?_, hrounds'⟩
    rw [← Nat.add_assoc, stateAfter_succ, hstate', hstep]

/-- The blocks one after the other, if the rounds end. -/
theorem exists_blocks (prf : List UInt8 → Bytes32) (salt : List UInt8) (hiter : 1 ≤ iter)
    (hmax : iter ≠ Int64.maxValue) (hkey : KeyLength keyLen) (hb : b ≤ blockCount keyLen) :
    ∃ steps f, stateAfter prf salt iter keyLen steps = .blocks f ∧
      AtBlocks prf salt iter.toInt.toNat (blockCount keyLen) b f := by
  induction b with
  | zero =>
    obtain ⟨f, hstart, hblocks⟩ := exists_start prf salt iter hkey
    exact ⟨0, f, hstart, hblocks⟩
  | succ b ih =>
    have hpos : 1 ≤ iter.toInt := Int64.le_iff_toInt_le.mp hiter
    have hlast : iter.toInt.toNat - 1 + 1 = iter.toInt.toNat := by omega
    obtain ⟨steps, f, hstate, hblocks⟩ := ih (Nat.le_of_succ_le hb)
    obtain ⟨f', T, n, hstate', hrounds⟩ :=
      exists_rounds hiter hkey hstate hblocks hb (.inl hlast.le)
    refine ⟨steps + (iter.toInt.toNat - 1 + 1) + 1, { f' with block := f'.block + 1 }, ?_,
      hrounds.leave hlast⟩
    rw [stateAfter_succ, hstate',
      step_rounds_of_eq hiter hmax hrounds hlast]

theorem exists_returned (prf : List UInt8 → Bytes32) (salt : List UInt8) (hiter : 1 ≤ iter)
    (hmax : iter ≠ Int64.maxValue) (hkey : KeyLength keyLen) :
    ∃ first memory result, stateAfter prf salt iter keyLen first = .returned memory result := by
  obtain ⟨steps, f, hstate, hblocks⟩ := exists_blocks prf salt hiter hmax hkey (le_refl _)
  obtain ⟨result, hstep, -⟩ := step_blocks_of_eq hkey hblocks
  refine ⟨steps + 1, f.memory, result, ?_⟩
  rw [stateAfter_succ, hstate, hstep]

/-- What is returned stays. -/
theorem stateAfter_of_returned {first steps : ℕ} {memory : Memory UInt8} {result : SliceRef}
    (h : stateAfter prf salt iter keyLen first = .returned memory result) (hle : first ≤ steps) :
    stateAfter prf salt iter keyLen steps = .returned memory result := by
  obtain ⟨more, rfl⟩ := Nat.exists_eq_add_of_le' hle
  rw [stateAfter, Function.iterate_add_apply, ← stateAfter, h]
  exact Function.iterate_fixed rfl more

end Runs

/-- The output of a call still has all blocks that it has finished, or is the derived key. -/
def BlocksKept (prf : List UInt8 → Bytes32) (salt : List UInt8) (iter keyLen : ℕ) : State → Prop
  | .blocks f => f.dk.read f.memory = blocks prf salt iter (f.block.toInt.toNat - 1)
  | .rounds f _ _ => (f.dk.read f.memory).take (32 * (f.block.toInt.toNat - 1)) =
      blocks prf salt iter (f.block.toInt.toNat - 1)
  | .returned memory result => result.read memory = derivedKey prf salt iter keyLen
  | .panicked => False

section Kept

variable {prf : List UInt8 → Bytes32} {salt : List UInt8} {iter keyLen : Int64} {c total b r : ℕ}
  {f : Frame} {T : SliceRef} {n : Int64}

theorem AtBlocks.read_dk (h : AtBlocks prf salt c total b f) :
    f.dk.read f.memory = blocks prf salt c b := by
  obtain ⟨rest, -, hout⟩ := h.output
  rw [h.dk_eq]
  exact SliceRef.read_first hout rfl (length_blocks b).symm

theorem AtRounds.take_dk (h : AtRounds prf salt c total b r f T n) :
    (f.dk.read f.memory).take (32 * b) = blocks prf salt c b := by
  obtain ⟨rest, -, hout⟩ := h.output
  have hread : f.dk.read f.memory =
      blocks prf salt c b ++ (t prf salt (r + 1) (b + 1)).toList := by
    rw [h.dk_eq]
    refine SliceRef.read_first hout rfl ?_
    rw [List.length_append, length_blocks, Bytes32.length_eq]
    rfl
  rw [hread, List.take_left' (length_blocks b)]

theorem toNat_block_sub_one (hkey : KeyLength keyLen) (hb : b ≤ blockCount keyLen)
    (hblock : f.block = Int64.ofNat (b + 1)) : f.block.toInt.toNat - 1 = b := by
  have hlt := hkey.blockCount_lt
  rw [hblock, Int64.toInt_ofNat_of_lt (by omega)]
  omega

theorem Good.blocksKept (hkey : KeyLength keyLen) {s : State} (h : Good prf salt iter keyLen s) :
    BlocksKept prf salt iter.toInt.toNat keyLen.toInt.toNat s := by
  cases s with
  | blocks f =>
    obtain ⟨b, hb, hblocks⟩ := h
    rw [BlocksKept, toNat_block_sub_one hkey hb hblocks.block_eq]
    exact hblocks.read_dk
  | rounds f T n =>
    obtain ⟨b, r, hb, -, hrounds⟩ := h
    rw [BlocksKept, toNat_block_sub_one hkey hb.le hrounds.block_eq]
    exact hrounds.take_dk
  | returned memory result => exact h
  | panicked => exact h

end Kept

end Pbkdf2

section Returns

variable {hmac : List UInt8 → List UInt8 → Bytes32} {password salt : List UInt8}
  {iter keyLen : Int64}

open Pbkdf2

/-- A call that has returned has returned the derived key. -/
theorem pbkdf2SHA256_of_returned (hiter : 1 ≤ iter) (hkey : KeyLength keyLen) {first steps : ℕ}
    {memory : Memory UInt8} {result : SliceRef}
    (h : stateAfter (hmac password) salt iter keyLen first = .returned memory result)
    (hle : first ≤ steps) :
    pbkdf2SHA256 hmac password salt iter keyLen steps =
      .ok (derivedKey (hmac password) salt iter.toInt.toNat keyLen.toInt.toNat) := by
  have hstate := stateAfter_of_returned h hle
  have hgood := good_stateAfter (hmac password) salt hiter hkey steps
  rw [hstate] at hgood
  rw [pbkdf2SHA256, hstate]
  exact congrArg Except.ok hgood

/-- A call returns the derived key, if the rounds of a block end. -/
theorem exists_pbkdf2SHA256 (hmac : List UInt8 → List UInt8 → Bytes32) (password salt : List UInt8)
    (hiter : 1 ≤ iter) (hmax : iter ≠ Int64.maxValue) (hkey : KeyLength keyLen) :
    ∃ first, ∀ steps ≥ first, pbkdf2SHA256 hmac password salt iter keyLen steps =
      .ok (derivedKey (hmac password) salt iter.toInt.toNat keyLen.toInt.toNat) := by
  obtain ⟨first, memory, result, hstate⟩ := exists_returned (hmac password) salt hiter hmax hkey
  exact ⟨first, fun steps hsteps ↦ pbkdf2SHA256_of_returned hiter hkey hstate hsteps⟩

theorem exists_of_pbkdf2SHA256 {steps : ℕ} {key : List UInt8}
    (h : pbkdf2SHA256 hmac password salt iter keyLen steps = .ok key) :
    ∃ memory result, stateAfter (hmac password) salt iter keyLen steps =
      .returned memory result := by
  cases hstate : stateAfter (hmac password) salt iter keyLen steps with
  | returned memory result => exact ⟨memory, result, rfl⟩
  | _ =>
    rw [pbkdf2SHA256, hstate] at h
    cases h

/-- What is returned is the derived key. -/
theorem eq_of_pbkdf2SHA256 (hiter : 1 ≤ iter) (hkey : KeyLength keyLen) {steps : ℕ}
    {key : List UInt8} (h : pbkdf2SHA256 hmac password salt iter keyLen steps = .ok key) :
    key = derivedKey (hmac password) salt iter.toInt.toNat keyLen.toInt.toNat := by
  obtain ⟨memory, result, hstate⟩ := exists_of_pbkdf2SHA256 h
  rw [pbkdf2SHA256_of_returned hiter hkey hstate (le_refl _)] at h
  exact (Except.ok.inj h).symm

theorem pbkdf2SHA256_of_le (hiter : 1 ≤ iter) (hkey : KeyLength keyLen) {steps later : ℕ}
    {key : List UInt8} (h : pbkdf2SHA256 hmac password salt iter keyLen steps = .ok key)
    (hle : steps ≤ later) : pbkdf2SHA256 hmac password salt iter keyLen later = .ok key := by
  obtain ⟨memory, result, hstate⟩ := exists_of_pbkdf2SHA256 h
  rw [eq_of_pbkdf2SHA256 hiter hkey h]
  exact pbkdf2SHA256_of_returned hiter hkey hstate hle

/-- For the greatest number of iterations the rounds of the first block never end. -/
theorem pbkdf2SHA256_maxValue (hkey : KeyLength keyLen) (hne : keyLen ≠ 0) (steps : ℕ) :
    pbkdf2SHA256 hmac password salt Int64.maxValue keyLen steps = .error .running := by
  have hpos : 0 < blockCount keyLen := by
    have hne' : keyLen.toInt ≠ 0 := fun h0 ↦ hne (Int64.toInt_inj.mp h0)
    have hnonneg := hkey.nonneg
    rw [blockCount]
    omega
  obtain ⟨f, hstart, hblocks⟩ := exists_start (hmac password) salt Int64.maxValue hkey
  rw [pbkdf2SHA256]
  cases steps with
  | zero =>
    rw [stateAfter, Function.iterate_zero_apply, hstart]
    rfl
  | succ r =>
    have hzero : stateAfter (hmac password) salt Int64.maxValue keyLen 0 = .blocks f := hstart
    obtain ⟨f', T, n, hstate, -⟩ := exists_rounds (r := r) (by decide) hkey hzero hblocks hpos
      (.inr rfl)
    rw [Nat.zero_add] at hstate
    rw [hstate]
    rfl

/-- A call returns the derived key if and only if the number of iterations is not the greatest one,
or no block is needed. At every step before, the blocks that are finished are as they should be. -/
theorem pbkdf2SHA256_returns_iff (hmac : List UInt8 → List UInt8 → Bytes32)
    (password salt : List UInt8) {iter keyLen : Int64} (hiter : 1 ≤ iter) (hnonneg : 0 ≤ keyLen)
    (hle : keyLen.toInt ≤ 32 * (2 ^ 32 - 1)) :
    ((∃ first, ∀ steps ≥ first, pbkdf2SHA256 hmac password salt iter keyLen steps =
        .ok (derivedKey (hmac password) salt iter.toInt.toNat keyLen.toInt.toNat)) ↔
      iter ≠ Int64.maxValue ∨ keyLen = 0) ∧
    ∀ steps, BlocksKept (hmac password) salt iter.toInt.toNat keyLen.toInt.toNat
      (stateAfter (hmac password) salt iter keyLen steps) := by
  have hkey : KeyLength keyLen := ⟨Int64.le_iff_toInt_le.mp hnonneg, hle⟩
  refine ⟨⟨fun hreturns ↦ ?_, fun hends ↦ ?_⟩, fun steps ↦
    (good_stateAfter (hmac password) salt hiter hkey steps).blocksKept hkey⟩
  · by_contra hendless
    obtain ⟨hmax, hne⟩ := not_or.mp hendless
    obtain ⟨first, hfirst⟩ := hreturns
    have hresult := hfirst first (le_refl _)
    rw [not_not.mp hmax, pbkdf2SHA256_maxValue hkey hne] at hresult
    cases hresult
  · by_cases hmax : iter = Int64.maxValue
    · obtain rfl := hends.resolve_left (not_not.mpr hmax)
      obtain ⟨f, hstart, hblocks⟩ := exists_start (hmac password) salt iter hkey
      obtain ⟨result, hstep, -⟩ := step_blocks_of_eq hkey hblocks
      have hstate : stateAfter (hmac password) salt iter 0 1 = .returned f.memory result :=
        (congrArg _ hstart).trans hstep
      exact ⟨1, fun steps hsteps ↦ pbkdf2SHA256_of_returned hiter hkey hstate hsteps⟩
    · exact exists_pbkdf2SHA256 hmac password salt hiter hmax hkey

end Returns

theorem pbkdf2SHA256_returns_sample :
    ∃ first, ∀ steps ≥ first, pbkdf2SHA256 hmacSHA256 [0x70] [0x73] 2 40 steps =
      .ok (Pbkdf2.derivedKey (hmacSHA256 [0x70]) [0x73] 2 40) :=
  (pbkdf2SHA256_returns_iff hmacSHA256 [0x70] [0x73] (by decide) (by decide) (by decide)).1.mpr
    (.inl (by decide))

/-- With the greatest number of iterations, a call for one byte never returns. -/
theorem pbkdf2SHA256_endless :
    1 ≤ Int64.maxValue ∧ 0 ≤ (1 : Int64) ∧ (1 : Int64).toInt ≤ 32 * (2 ^ 32 - 1) ∧
      ∀ steps, pbkdf2SHA256 hmacSHA256 [0x70] [0x73] Int64.maxValue 1 steps = .error .running :=
  ⟨by decide, by decide, by decide, pbkdf2SHA256_maxValue ⟨by decide, by decide⟩ (by decide)⟩

end NevelCore.Wallet
