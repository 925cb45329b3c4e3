import NevelCore.Foundations.Bytes
import Mathlib.Data.Finmap

/-!
# Payment requests

`pay.Store`: the payment requests of merchants, kept by their identifiers. A reading of the clock is
an argument, in nanoseconds, and so is what the random source gives. The seconds of an instant are
an integer here: those of every clock of the standard library fit `int64`.

A request expires partly when it is read and partly when it is written: `Get` shows a pending
request as expired without changing it (`PaymentRequest.shown`), and `MarkBroadcasted` stores one of
two states, whatever the state was before (`PaymentRequest.marked`).
-/

set_option autoImplicit false
set_option relaxedAutoImplicit false

namespace NevelCore.Pay

open Foundations

/-- `string`, of any bytes. -/
abbrev Text := List UInt8

inductive Status where
  | pending
  | broadcasted
  | confirmed
  | expired
  | refunded
deriving DecidableEq

structure PaymentRequest where
  id : Text
  merchant : Text
  address : Text
  amount : UInt64
  memo : Text
  expiresAt : ℤ
  status : Status
  txHash : Text
deriving DecidableEq

inductive PayError where
  | fieldsRequired
  | random (message : String)
  | notFound
deriving DecidableEq

/-- The text of an error. -/
def PayError.message : PayError → String
  | .fieldsRequired => "merchant, address, and positive amount are required"
  | .random message => message
  | .notFound => "payment not found"

/-- `Unix` of the standard library: the seconds of an instant. -/
def unix (now : ℤ) : ℤ := now / 1_000_000_000

namespace PaymentRequest

/-- A request as `Get` shows it. -/
def shown (req : PaymentRequest) (now : ℤ) : PaymentRequest :=
  if req.status = .pending ∧ unix now > req.expiresAt then { req with status := .expired } else req

/-- A request as `MarkBroadcasted` stores it. -/
def marked (req : PaymentRequest) (txHash : Text) (now : ℤ) : PaymentRequest :=
  if unix now > req.expiresAt then { req with status := .expired }
  else { req with status := .broadcasted, txHash := txHash }

end PaymentRequest

abbrev Store := Finmap fun _ : Text ↦ PaymentRequest

namespace Store

/-- `NewStore`. -/
def new : Store := ∅

/-- `Create`. -/
def create (s : Store) (merchant address : Text) (amount : UInt64) (memo : Text) (ttl : Int64)
    (random : Except String (Vector UInt8 16)) (now : ℤ) : Except PayError PaymentRequest × Store :=
  if merchant = [] ∨ address = [] ∨ amount = 0 then (.error .fieldsRequired, s)
  else
    match random with
    | .error message => (.error (.random message), s)
    | .ok idBytes =>
      let ttl := if ttl ≤ 0 then 15 * 60 * 1_000_000_000 else ttl
      let req : PaymentRequest := {
        id := encodeHex idBytes.toList
        merchant := merchant
        address := address
        amount := amount
        memo := memo
        expiresAt := unix (now + ttl.toInt)
        status := .pending
        txHash := [] }
      (.ok req, s.insert req.id req)

/-- `Create` fails and keeps nothing, or keeps a pending request under the identifier drawn. -/
theorem create_spec (s : Store) (merchant address : Text) (amount : UInt64) (memo : Text)
    (ttl : Int64) (random : Except String (Vector UInt8 16)) (now : ℤ) :
    (∃ e, s.create merchant address amount memo ttl random now = (.error e, s)) ∨
      ∃ idBytes req, random = .ok idBytes ∧ req.id = encodeHex idBytes.toList ∧
        req.status = .pending ∧ req.txHash = [] ∧
        s.create merchant address amount memo ttl random now = (.ok req, s.insert req.id req) := by
  unfold create
  split
  · exact .inl ⟨_, rfl⟩
  · cases random with
    | error message => exact .inl ⟨_, rfl⟩
    | ok idBytes => exact .inr ⟨idBytes, _, rfl, rfl, rfl, rfl, rfl⟩

/-- `Get`. -/
def get (s : Store) (id : Text) (now : ℤ) : Option PaymentRequest :=
  (s.lookup id).map fun req ↦ req.shown now

/-- `MarkBroadcasted`. -/
def markBroadcasted (s : Store) (id txHash : Text) (now : ℤ) :
    Except PayError PaymentRequest × Store :=
  match s.lookup id with
  | none => (.error .notFound, s)
  | some req => (.ok (req.marked txHash now), s.insert id (req.marked txHash now))

end Store

end NevelCore.Pay
