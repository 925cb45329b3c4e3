import NevelCore.Foundations.PackedSha256
import NevelCore.Foundations.TextNumerals
import NevelCore.Pay.Store
import NevelCore.Wallet.Pbkdf2

/-!
# Webhooks

`SignWebhook` and `VerifyWebhook`: a merchant that shares a secret with the node can check the body
of a call. A signature is good for its body only, unless there is a collision of the hash among the
texts that are hashed for the two signatures (`verifyWebhook_iff`). It is good for every secret with
the same `keyBlock`: zero bytes at the end of a secret do not count, and a secret of more than 64
bytes can be replaced by its hash.
-/

set_option autoImplicit false
set_option relaxedAutoImplicit false

namespace NevelCore.Pay

open Foundations Wallet

/-- `SignWebhook`. -/
def signWebhook (secret body : Text) : Text := encodeHex (hmacSHA256 secret body).toList

/-- `VerifyWebhook`. -/
def verifyWebhook (secret body signature : Text) : Bool := signWebhook secret body = signature

/-! ### The texts that are hashed -/

/-- The block that stands for a secret. -/
def keyBlock (secret : Text) : List UInt8 :=
  let key := if 64 < secret.length then (sha256 secret).toList else secret
  key ++ List.replicate (64 - key.length) 0

def innerText (secret body : Text) : List UInt8 := (keyBlock secret).map (· ^^^ 0x36) ++ body

def outerText (secret body : Text) : List UInt8 :=
  (keyBlock secret).map (· ^^^ 0x5c) ++ (sha256 (innerText secret body)).toList

/-- The texts that are hashed for a signature, once the block is made. -/
def hashedTexts (secret body : Text) : Set (List UInt8) :=
  {innerText secret body, outerText secret body}

section Webhooks

variable {secret secret' body body' : Text}

theorem signWebhook_eq (secret body : Text) :
    signWebhook secret body = encodeHex (sha256 (outerText secret body)).toList := rfl

theorem length_keyBlock (secret : Text) : (keyBlock secret).length = 64 := by
  unfold keyBlock
  dsimp only
  rw [List.length_append, List.length_replicate]
  split_ifs with hlong
  · rw [Bytes32.length_eq]
  · omega

theorem map_xor_injective (mask : UInt8) : Function.Injective (List.map (· ^^^ mask)) :=
  List.map_injective_iff.mpr fun _ _ h ↦ (UInt8.xor_left_inj mask).mp h

theorem append_inj_keyBlock {mask : UInt8} {rest rest' : List UInt8}
    (h : (keyBlock secret).map (· ^^^ mask) ++ rest =
      (keyBlock secret').map (· ^^^ mask) ++ rest') :
    keyBlock secret = keyBlock secret' ∧ rest = rest' := by
  have hlength : ((keyBlock secret).map (· ^^^ mask)).length =
      ((keyBlock secret').map (· ^^^ mask)).length := by
    rw [List.length_map, List.length_map, length_keyBlock, length_keyBlock]
  obtain ⟨hblock, hrest⟩ := List.append_inj h hlength
  exact ⟨map_xor_injective mask hblock, hrest⟩

end Webhooks

/-- A signature is accepted for the body that it was made for and no other, with any secret that
gives the same block. -/
theorem verifyWebhook_iff {secret secret' body body' : Text}
    (hfree : Set.InjOn sha256 (hashedTexts secret body ∪ hashedTexts secret' body')) :
    verifyWebhook secret' body' (signWebhook secret body) = true ↔
      keyBlock secret' = keyBlock secret ∧ body' = body := by
  rw [verifyWebhook, decide_eq_true_iff]
  constructor
  · intro h
    rw [signWebhook_eq, signWebhook_eq] at h
    have houter := hfree (.inr (.inr rfl)) (.inl (.inr rfl)) (Bytes32.ext (encodeHex_injective h))
    obtain ⟨hblock, hdigest⟩ := append_inj_keyBlock houter
    have hinner := hfree (.inr (.inl rfl)) (.inl (.inl rfl)) (Bytes32.ext hdigest)
    exact ⟨hblock, (append_inj_keyBlock hinner).2⟩
  · rintro ⟨hblock, rfl⟩
    rw [signWebhook_eq, signWebhook_eq, outerText, outerText, innerText, innerText, hblock]

namespace Sample

def secret : Text := [0x6b]

def body : Text := [0x31]

theorem keyBlock_append_zero : keyBlock (secret ++ [0]) = keyBlock secret := by decide

theorem hashedTexts_append_zero : hashedTexts (secret ++ [0]) body = hashedTexts secret body := by
  rw [hashedTexts, outerText, innerText, keyBlock_append_zero]
  rfl

theorem collisionFree : Set.InjOn sha256 (hashedTexts secret body) := by
  refine Set.injOn_pair.mpr fun h ↦ absurd (congrArg Bytes32.toList h) ?_
  rw [outerText, toList_sha256, toList_sha256]
  decide +kernel

end Sample

/-- A zero byte at the end of the secret makes no difference. -/
theorem verifyWebhook_append_zero :
    verifyWebhook (Sample.secret ++ [0]) Sample.body (signWebhook Sample.secret Sample.body) =
      true := by
  refine (verifyWebhook_iff ?_).mpr ⟨Sample.keyBlock_append_zero, rfl⟩
  rw [Sample.hashedTexts_append_zero, Set.union_self]
  exact Sample.collisionFree

end NevelCore.Pay
