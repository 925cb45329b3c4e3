import NevelCore.Pay.Store
import Mathlib.Tactic.Common

/-!
# The lifecycle of payments

Calls of a store one after the other, at times that do not decrease, and what they report of a
request (`Run`). Reports should only move forward (`MovesForward`): a request that has been marked
as broadcasted is reported so ever after, with the same hash, and one that has been reported as
expired is never again reported as pending or broadcasted.

`MarkBroadcasted` does not look at the state of the request, so it can change a broadcasted one: to
expired if its time is over, and to another hash otherwise. `Create` does not look whether the
identifier that it draws is in use. `Admissible` leaves these calls out. `step_keeps` says what one
call then keeps of a stored request and `step_report` what it reports, and from these `Tracked.step`
carries the invariant along a run. `payments_moveForward` is the result, and says also that no other
call of `MarkBroadcasted` could be allowed.
-/

set_option autoImplicit false
set_option relaxedAutoImplicit false

namespace NevelCore.Pay

open Foundations

/-! ### Calls and reports -/

/-- A call of the store. What the random source gives is part of a call of `Create`. -/
inductive Call where
  | create (merchant address : Text) (amount : UInt64) (memo : Text) (ttl : Int64)
      (random : Except String (Vector UInt8 16))
  | get (id : Text)
  | markBroadcasted (id txHash : Text)

/-- What `Get`, or `MarkBroadcasted` if it is marked, has returned for an identifier. -/
structure Report where
  id : Text
  marked : Bool
  request : PaymentRequest

/-- What a call at some time reports, and the store after it. -/
def Store.step (s : Store) (now : ℤ) : Call → Option Report × Store
  | .create merchant address amount memo ttl random =>
    (none, (s.create merchant address amount memo ttl random now).2)
  | .get id => ((s.get id now).map fun req ↦ ⟨id, false, req⟩, s)
  | .markBroadcasted id txHash =>
    ((s.markBroadcasted id txHash now).1.toOption.map fun req ↦ ⟨id, true, req⟩,
      (s.markBroadcasted id txHash now).2)

/-- Calls on a new store that are all allowed, up to a time. The newest report is the first one. -/
inductive Run (allowed : Store → ℤ → Call → Prop) : ℤ → Store → List Report → Prop where
  | start (now : ℤ) : Run allowed now .new []
  | call {before now : ℤ} {s : Store} {reports : List Report} (run : Run allowed before s reports)
      (later : before ≤ now) (c : Call) (ok : allowed s now c) :
      Run allowed now (s.step now c).2 ((s.step now c).1.toList ++ reports)

/-- A report may follow an earlier one. -/
def Report.Follows (later earlier : Report) : Prop :=
  later.id = earlier.id →
    (earlier.marked = true → earlier.request.status = .broadcasted →
      later.request.status = .broadcasted ∧ later.request.txHash = earlier.request.txHash) ∧
    (earlier.request.status = .expired →
      later.request.status ≠ .pending ∧ later.request.status ≠ .broadcasted)

/-- Each report may follow all earlier ones. -/
def MovesForward (reports : List Report) : Prop := reports.Pairwise Report.Follows

/-- A call of `Create` draws an identifier that is not in use. A call of `MarkBroadcasted` for a
broadcasted request is in its time and has its hash. -/
def Admissible (s : Store) (now : ℤ) : Call → Prop
  | .create _ _ _ _ _ random => ∀ idBytes, random = .ok idBytes →
      s.lookup (encodeHex idBytes.toList) = none
  | .get _ => True
  | .markBroadcasted id txHash => ∀ req, s.lookup id = some req → req.status = .broadcasted →
      unix now ≤ req.expiresAt ∧ txHash = req.txHash

/-! ### One call -/

section Step

variable {s : Store} {now : ℤ} {c : Call}

theorem unix_mono {before now : ℤ} (h : before ≤ now) : unix before ≤ unix now :=
  Int.ediv_le_ediv (by decide) h

theorem step_markBroadcasted {id txHash : Text} {req : PaymentRequest}
    (h : s.lookup id = some req) :
    s.step now (.markBroadcasted id txHash) =
      (some ⟨id, true, req.marked txHash now⟩, s.insert id (req.marked txHash now)) := by
  rw [Store.step, Store.markBroadcasted, h]
  rfl

theorem step_markBroadcasted_of_none {id txHash : Text} (h : s.lookup id = none) :
    s.step now (.markBroadcasted id txHash) = (none, s) := by
  rw [Store.step, Store.markBroadcasted, h]
  rfl

/-- What any call can do: leave the store, store a new pending request, or mark one. -/
theorem step_store_cases (s : Store) (now : ℤ) (c : Call) :
    (s.step now c).2 = s ∨
      (∃ merchant address amount memo ttl idBytes req,
        c = .create merchant address amount memo ttl (.ok idBytes) ∧ req.status = .pending ∧
          (s.step now c).2 = s.insert (encodeHex idBytes.toList) req) ∨
      ∃ id txHash req, c = .markBroadcasted id txHash ∧ s.lookup id = some req ∧
        (s.step now c).2 = s.insert id (req.marked txHash now) := by
  cases c with
  | create merchant address amount memo ttl random =>
    rcases s.create_spec merchant address amount memo ttl random now with
      ⟨e, heq⟩ | ⟨idBytes, req, rfl, hid, hpending, -, heq⟩
    · refine .inl ?_
      rw [Store.step, heq]
    · refine .inr (.inl ⟨merchant, address, amount, memo, ttl, idBytes, req, rfl, hpending, ?_⟩)
      rw [Store.step, heq, hid]
  | get id => exact .inl rfl
  | markBroadcasted id txHash =>
    cases hlookup : s.lookup id with
    | none => exact .inl (congrArg Prod.snd (step_markBroadcasted_of_none hlookup))
    | some req =>
      exact .inr (.inr ⟨id, txHash, req, rfl, hlookup,
        congrArg Prod.snd (step_markBroadcasted hlookup)⟩)

theorem shown_cases (req : PaymentRequest) (now : ℤ) :
    req.status = .pending ∧ req.expiresAt < unix now ∧
        req.shown now = { req with status := .expired } ∨
      ¬ (req.status = .pending ∧ req.expiresAt < unix now) ∧ req.shown now = req := by
  by_cases hover : req.status = .pending ∧ req.expiresAt < unix now
  · exact .inl ⟨hover.1, hover.2, if_pos hover⟩
  · exact .inr ⟨hover, if_neg hover⟩

theorem marked_cases (req : PaymentRequest) (txHash : Text) (now : ℤ) :
    req.expiresAt < unix now ∧ req.marked txHash now = { req with status := .expired } ∨
      unix now ≤ req.expiresAt ∧
        req.marked txHash now = { req with status := .broadcasted, txHash := txHash } := by
  by_cases hover : req.expiresAt < unix now
  · exact .inl ⟨hover, if_pos hover⟩
  · exact .inr ⟨not_lt.mp hover, if_neg hover⟩

/-- A request that a call leaves in the store was there before, or is pending, or is the one that
has been marked and reported. -/
theorem lookup_step_cases {id : Text} {req : PaymentRequest}
    (h : (s.step now c).2.lookup id = some req) :
    s.lookup id = some req ∨ req.status = .pending ∨
      (s.step now c).1 = some ⟨id, true, req⟩ ∧
        (req.status = .expired → req.expiresAt < unix now) := by
  rcases step_store_cases s now c with
    hstore | ⟨merchant, address, amount, memo, ttl, idBytes, new, rfl, hpending, hstore⟩ |
      ⟨id', txHash, old, rfl, hlookup, hstore⟩
  · rw [hstore] at h
    exact .inl h
  · rw [hstore] at h
    by_cases heq : id = encodeHex idBytes.toList
    · rw [heq, Finmap.lookup_insert] at h
      cases h
      exact .inr (.inl hpending)
    · rw [Finmap.lookup_insert_of_ne _ heq] at h
      exact .inl h
  · rw [hstore] at h
    by_cases heq : id = id'
    · rw [heq, Finmap.lookup_insert] at h
      cases h
      refine .inr (.inr ⟨?_, fun hexpired ↦ ?_⟩)
      · rw [step_markBroadcasted hlookup, heq]
      · rcases marked_cases old txHash now with ⟨hover, hmarked⟩ | ⟨-, hmarked⟩
        · rw [hmarked]
          exact hover
        · rw [hmarked] at hexpired
          cases hexpired
    · rw [Finmap.lookup_insert_of_ne _ heq] at h
      exact .inl h

/-- What an admissible call leaves of a stored request: a broadcasted one stays so with its hash,
and one whose time is over does not become so. -/
theorem step_keeps (hok : Admissible s now c) {id : Text} {req : PaymentRequest}
    (h : s.lookup id = some req) :
    ∃ req', (s.step now c).2.lookup id = some req' ∧ req'.expiresAt = req.expiresAt ∧
      (req.status = .broadcasted → req'.status = .broadcasted ∧ req'.txHash = req.txHash) ∧
      (req.status ≠ .broadcasted → req.expiresAt < unix now → req'.status ≠ .broadcasted) := by
  have hsame : ∃ req', some req = some req' ∧ req'.expiresAt = req.expiresAt ∧
      (req.status = .broadcasted → req'.status = .broadcasted ∧ req'.txHash = req.txHash) ∧
      (req.status ≠ .broadcasted → req.expiresAt < unix now → req'.status ≠ .broadcasted) :=
    ⟨req, rfl, rfl, fun hstatus ↦ ⟨hstatus, rfl⟩, fun hstatus _ ↦ hstatus⟩
  rcases step_store_cases s now c with
    hstore | ⟨merchant, address, amount, memo, ttl, idBytes, new, rfl, -, hstore⟩ |
      ⟨id', txHash, req', rfl, hlookup, hstore⟩
  · rw [hstore, h]
    exact hsame
  · -- the identifier drawn is not this one, which is in use
    have hne : id ≠ encodeHex idBytes.toList := by
      rintro rfl
      rw [hok idBytes rfl] at h
      cases h
    rw [hstore, Finmap.lookup_insert_of_ne _ hne, h]
    exact hsame
  · rw [hstore]
    by_cases heq : id = id'
    · rw [heq] at h
      cases h.symm.trans hlookup
      rw [heq, Finmap.lookup_insert]
      refine ⟨_, rfl, ?_⟩
      rcases marked_cases req txHash now with ⟨hover, hmarked⟩ | ⟨htime, hmarked⟩
      · rw [hmarked]
        refine ⟨rfl, fun hstatus ↦ ?_, fun _ _ hstatus ↦ by cases hstatus⟩
        exact absurd (hok req h hstatus).1 (not_le.mpr hover)
      · rw [hmarked]
        exact ⟨rfl, fun hstatus ↦ ⟨rfl, (hok req h hstatus).2⟩,
          fun _ hover ↦ absurd htime (not_le.mpr hover)⟩
    · rw [Finmap.lookup_insert_of_ne _ heq, h]
      exact hsame

/-- What an admissible call reports is about a stored request, and agrees with what it leaves. -/
theorem step_report (hok : Admissible s now c)
    (hover : ∀ {id req}, s.lookup id = some req → req.status = .expired → req.expiresAt < unix now)
    {r : Report} (h : (s.step now c).1 = some r) :
    ∃ req req', s.lookup r.id = some req ∧ (s.step now c).2.lookup r.id = some req' ∧
      (req.status = .broadcasted →
        r.request.status = .broadcasted ∧ r.request.txHash = req.txHash) ∧
      (req.status ≠ .broadcasted → req.expiresAt < unix now →
        r.request.status ≠ .pending ∧ r.request.status ≠ .broadcasted) ∧
      (r.request.status = .broadcasted →
        req'.status = .broadcasted ∧ req'.txHash = r.request.txHash) ∧
      (r.request.status = .expired →
        req'.status ≠ .broadcasted ∧ req'.expiresAt < unix now) := by
  cases c with
  | create merchant address amount memo ttl random => cases h
  | get id =>
    rw [Store.step, Store.get] at h
    cases hlookup : s.lookup id with
    | none =>
      rw [hlookup] at h
      cases h
    | some req =>
      rw [hlookup] at h
      cases h
      refine ⟨req, req, hlookup, hlookup, ?_⟩
      dsimp only
      rcases shown_cases req now with ⟨hpending, htime, hshown⟩ | ⟨hshow, hshown⟩
      · rw [hshown]
        simp [hpending, htime]
      · rw [hshown]
        exact ⟨fun hstatus ↦ ⟨hstatus, rfl⟩, fun hne htime ↦ ⟨fun hp ↦ hshow ⟨hp, htime⟩, hne⟩,
          fun hstatus ↦ ⟨hstatus, rfl⟩,
          fun hstatus ↦ ⟨fun hb ↦ (by cases hstatus.symm.trans hb), hover hlookup hstatus⟩⟩
  | markBroadcasted id txHash =>
    cases hlookup : s.lookup id with
    | none =>
      rw [step_markBroadcasted_of_none hlookup] at h
      cases h
    | some req =>
      rw [step_markBroadcasted hlookup] at h ⊢
      cases h
      refine ⟨req, _, hlookup, Finmap.lookup_insert _, ?_⟩
      dsimp only
      rcases marked_cases req txHash now with ⟨htime, hmarked⟩ | ⟨htime, hmarked⟩
      · have hstatus : req.status ≠ .broadcasted := fun hstatus ↦
          absurd (hok req hlookup hstatus).1 (not_le.mpr htime)
        rw [hmarked]
        simp [hstatus, htime]
      · rw [hmarked]
        exact ⟨fun hstatus ↦ ⟨rfl, (hok req hlookup hstatus).2⟩,
          fun _ hlate ↦ absurd htime (not_le.mpr hlate), fun _ ↦ ⟨rfl, rfl⟩,
          fun hstatus ↦ (by cases hstatus)⟩

end Step

/-! ### Runs -/

/-- What is known of a store at some time after some reports. -/
structure Tracked (now : ℤ) (s : Store) (reports : List Report) : Prop where
  /-- A request that is stored as expired has its time over. -/
  ended : ∀ {id req}, s.lookup id = some req → req.status = .expired → req.expiresAt < unix now
  /-- A request that is stored as broadcasted has been reported when it was marked. -/
  recorded : ∀ {id req}, s.lookup id = some req → req.status = .broadcasted →
    ∃ r ∈ reports, r.id = id ∧ r.marked = true ∧ r.request.status = .broadcasted ∧
      r.request.txHash = req.txHash
  broadcasted : ∀ r ∈ reports, r.request.status = .broadcasted →
    ∃ req, s.lookup r.id = some req ∧ req.status = .broadcasted ∧ req.txHash = r.request.txHash
  expired : ∀ r ∈ reports, r.request.status = .expired →
    ∃ req, s.lookup r.id = some req ∧ req.status ≠ .broadcasted ∧ req.expiresAt < unix now
  forward : MovesForward reports

theorem tracked_new (now : ℤ) : Tracked now .new [] where
  ended h := by cases h
  recorded h := by cases h
  broadcasted _ h := by cases h
  expired _ h := by cases h
  forward := .nil

/-- An admissible call keeps what is known. -/
theorem Tracked.step {before now : ℤ} {s : Store} {reports : List Report} {c : Call}
    (h : Tracked before s reports) (hlater : before ≤ now) (hok : Admissible s now c) :
    Tracked now (s.step now c).2 ((s.step now c).1.toList ++ reports) := by
  have hover {id : Text} {req : PaymentRequest} (hlookup : s.lookup id = some req)
      (hstatus : req.status = .expired) : req.expiresAt < unix now :=
    (h.ended hlookup hstatus).trans_le (unix_mono hlater)
  refine ⟨fun hlookup hstatus ↦ ?_, fun {id req} hlookup hstatus ↦ ?_, fun r hr hstatus ↦ ?_,
    fun r hr hstatus ↦ ?_, List.pairwise_append.mpr ⟨?_, h.forward, fun r hr earlier hearlier ↦ ?_⟩⟩
  · rcases lookup_step_cases hlookup with hold | hpending | ⟨-, hmarked⟩
    · exact hover hold hstatus
    · cases hpending.symm.trans hstatus
    · exact hmarked hstatus
  · rcases lookup_step_cases hlookup with hold | hpending | ⟨hreport, -⟩
    · obtain ⟨r, hr, hrest⟩ := h.recorded hold hstatus
      exact ⟨r, List.mem_append_right _ hr, hrest⟩
    · cases hpending.symm.trans hstatus
    · refine ⟨⟨id, true, req⟩, List.mem_append_left _ ?_, rfl, rfl, hstatus, rfl⟩
      rw [hreport]
      exact List.mem_singleton_self _
  · rcases List.mem_append.mp hr with hnew | hold
    · obtain ⟨-, req', -, hlookup, -, -, hagrees, -⟩ :=
        step_report hok hover (Option.mem_toList.mp hnew)
      exact ⟨req', hlookup, hagrees hstatus⟩
    · obtain ⟨req, hlookup, hbroadcasted, hhash⟩ := h.broadcasted r hold hstatus
      obtain ⟨req', hlookup', -, hkeeps, -⟩ := step_keeps hok hlookup
      obtain ⟨hbroadcasted', hhash'⟩ := hkeeps hbroadcasted
      exact ⟨req', hlookup', hbroadcasted', hhash'.trans hhash⟩
  · rcases List.mem_append.mp hr with hnew | hold
    · obtain ⟨-, req', -, hlookup, -, -, -, hagrees⟩ :=
        step_report hok hover (Option.mem_toList.mp hnew)
      exact ⟨req', hlookup, hagrees hstatus⟩
    · obtain ⟨req, hlookup, hnot, htime⟩ := h.expired r hold hstatus
      have htime' := htime.trans_le (unix_mono hlater)
      obtain ⟨req', hlookup', hexpires, -, hkeeps⟩ := step_keeps hok hlookup
      exact ⟨req', hlookup', hkeeps hnot htime', hexpires.symm ▸ htime'⟩
  · cases (s.step now c).1 with
    | none => exact .nil
    | some r => exact List.pairwise_singleton _ _
  · intro hid
    obtain ⟨req, -, hlookup, -, hbroadcasted, hlate, -⟩ :=
      step_report hok hover (Option.mem_toList.mp hr)
    rw [hid] at hlookup
    refine ⟨fun _ hstatus ↦ ?_, fun hstatus ↦ ?_⟩
    · obtain ⟨req', hlookup', hstored, hhash⟩ := h.broadcasted earlier hearlier hstatus
      cases hlookup.symm.trans hlookup'
      obtain ⟨hstatus', hhash'⟩ := hbroadcasted hstored
      exact ⟨hstatus', hhash'.trans hhash⟩
    · obtain ⟨req', hlookup', hnot, htime⟩ := h.expired earlier hearlier hstatus
      cases hlookup.symm.trans hlookup'
      exact hlate hnot (htime.trans_le (unix_mono hlater))

theorem Run.tracked {now : ℤ} {s : Store} {reports : List Report}
    (h : Run Admissible now s reports) : Tracked now s reports := by
  induction h with
  | start now => exact tracked_new now
  | call _ later c ok ih => exact ih.step later ok

/-- A call of `MarkBroadcasted` that changes a broadcasted request is reported as such. -/
theorem Tracked.admissible_of_movesForward {before now : ℤ} {s : Store} {reports : List Report}
    (h : Tracked before s reports) {id txHash : Text}
    (hforward : MovesForward ((s.step now (.markBroadcasted id txHash)).1.toList ++ reports)) :
    Admissible s now (.markBroadcasted id txHash) := by
  intro req hlookup hstatus
  obtain ⟨r, hr, hid, hmarked, hbroadcasted, hhash⟩ := h.recorded hlookup hstatus
  rw [step_markBroadcasted hlookup] at hforward
  have hfollows := (List.pairwise_append.mp hforward).2.2 _ (List.mem_singleton_self _) r hr
  obtain ⟨hstatus', hhash'⟩ := (hfollows hid.symm).1 hmarked hbroadcasted
  dsimp only at hstatus' hhash'
  rcases marked_cases req txHash now with ⟨-, hexpired⟩ | ⟨htime, hkept⟩
  · rw [hexpired] at hstatus'
    cases hstatus'
  · rw [hkept] at hhash'
    exact ⟨htime, hhash'.trans hhash⟩

/-- The reports of every run of admissible calls move forward. After such a run a call of
`MarkBroadcasted` keeps this if and only if it is admissible. -/
theorem payments_moveForward {before : ℤ} {s : Store} {reports : List Report}
    (h : Run Admissible before s reports) :
    MovesForward reports ∧ ∀ now ≥ before, ∀ id txHash,
      MovesForward ((s.step now (.markBroadcasted id txHash)).1.toList ++ reports) ↔
        Admissible s now (.markBroadcasted id txHash) :=
  ⟨h.tracked.forward, fun _ hlater _ _ ↦
    ⟨h.tracked.admissible_of_movesForward, fun hok ↦ (h.tracked.step hlater hok).forward⟩⟩

namespace Sample

/-- The identifier of sixteen zero bytes. -/
def id : Text := encodeHex (List.replicate 16 0)

/-- A request of one unit for a minute. -/
def create : Call :=
  .create [0x6d] [0x61] 1 [] 60_000_000_000 (.ok (Vector.replicate 16 0))

def request : PaymentRequest where
  id := id
  merchant := [0x6d]
  address := [0x61]
  amount := 1
  memo := []
  expiresAt := 60
  status := .pending
  txHash := []

/-- The request after it has been marked at the start. -/
def broadcasted : PaymentRequest := { request with status := .broadcasted, txHash := [0xab] }

def created : Store := Store.new.insert id request

def store : Store := created.insert id broadcasted

theorem run_broadcasted {allowed : Store → ℤ → Call → Prop} (hcreate : allowed .new 0 create)
    (hmark : allowed created 0 (.markBroadcasted id [0xab])) :
    Run allowed 0 store [⟨id, true, broadcasted⟩] := by
  have hcreated : Run allowed 0 created [] := .call (.start 0) le_rfl create hcreate
  have hrun := hcreated.call le_rfl (.markBroadcasted id [0xab]) hmark
  rwa [step_markBroadcasted (s := created) (Finmap.lookup_insert _)] at hrun

/-- Marks the request once more, at any later time. -/
theorem run_twice {now : ℤ} (hlater : 0 ≤ now) (txHash : Text) :
    Run (fun _ _ _ ↦ True) now (store.insert id (broadcasted.marked txHash now))
      [⟨id, true, broadcasted.marked txHash now⟩, ⟨id, true, broadcasted⟩] := by
  have hbefore := @run_broadcasted (fun _ _ _ ↦ True) trivial trivial
  have hrun := hbefore.call hlater (.markBroadcasted id txHash) trivial
  rwa [step_markBroadcasted (s := store) (Finmap.lookup_insert _)] at hrun

end Sample

theorem payments_moveForward_sample :
    Run Admissible 0 Sample.store [⟨Sample.id, true, Sample.broadcasted⟩] ∧
      ¬ MovesForward ((Sample.store.step 0 (.markBroadcasted Sample.id [0xcd])).1.toList ++
        [⟨Sample.id, true, Sample.broadcasted⟩]) := by
  have hrun : Run Admissible 0 Sample.store [⟨Sample.id, true, Sample.broadcasted⟩] := by
    refine Sample.run_broadcasted (fun _ _ ↦ rfl) fun req hlookup hstatus ↦ ?_
    rw [Sample.created, Finmap.lookup_insert] at hlookup
    cases hlookup
    cases hstatus
  refine ⟨hrun, fun hforward ↦ ?_⟩
  have hok := ((payments_moveForward hrun).2 0 le_rfl Sample.id [0xcd]).mp hforward
  exact absurd (hok Sample.broadcasted (Finmap.lookup_insert _) rfl).2 (by decide)

/-- A second call of `MarkBroadcasted` makes a broadcasted request expired after its time, and gives
it another hash before. -/
theorem payments_moveBack :
    (∃ s reports, Run (fun _ _ _ ↦ True) 61_000_000_000 s reports ∧ ¬ MovesForward reports ∧
      reports.map (fun r ↦ (r.marked, r.request.status, r.request.txHash)) =
        [(true, .expired, [0xab]), (true, .broadcasted, [0xab])]) ∧
    ∃ s reports, Run (fun _ _ _ ↦ True) 0 s reports ∧ ¬ MovesForward reports ∧
      reports.map (fun r ↦ (r.marked, r.request.status, r.request.txHash)) =
        [(true, .broadcasted, [0xcd]), (true, .broadcasted, [0xab])] := by
  refine ⟨⟨_, _, Sample.run_twice (by decide) [0xab], fun hforward ↦ ?_, rfl⟩,
    ⟨_, _, Sample.run_twice le_rfl [0xcd], fun hforward ↦ ?_, rfl⟩⟩
  · have hfollows := (List.pairwise_cons.mp hforward).1 _ (List.mem_singleton_self _) rfl
    exact absurd (hfollows.1 rfl rfl).1 (by decide)
  · have hfollows := (List.pairwise_cons.mp hforward).1 _ (List.mem_singleton_self _) rfl
    exact absurd (hfollows.1 rfl rfl).2 (by decide)

end NevelCore.Pay
