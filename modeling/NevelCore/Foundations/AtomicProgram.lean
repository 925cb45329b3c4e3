import Mathlib.Logic.Basic

/-!
# Programs of atomic calls

A program over a signature of calls is a tree: it has ended with a result or an error, or it makes
a call and goes on with the answer. A machine answers calls on a state, one call being one atomic
step, and `Prog.run` runs a program alone. The monad is that of sequential composition, in which an
error ends the program.

`Prog.run_bind` is the rule of sequential composition. `Prog.Only` says that a program makes only
calls of some kind and ends with no error but of some kind, and `Prog.run_of_only`,
`Prog.run_congr` and `Prog.raised_of_run` are its use: a program of calls that keep the state keeps
the state, and its result depends only on the answers to these calls.
-/

set_option autoImplicit false
set_option relaxedAutoImplicit false

namespace NevelCore.Foundations

/-- The calls a program may make, with the type of the answer to each. -/
structure Signature where
  Call : Type
  Answer : Call → Type

/-- A program: it has ended, or it makes a call and goes on with the answer. -/
inductive Prog (S : Signature) (ε α : Type) where
  | done (result : Except ε α)
  | call (c : S.Call) (next : S.Answer c → Prog S ε α)

/-- A machine answers every call on a state and moves to the next state. -/
abbrev Machine (S : Signature) (σ : Type) := (c : S.Call) → σ → S.Answer c × σ

/-- The machine without calls. -/
def noCalls : Machine ⟨Empty, fun _ ↦ Unit⟩ Unit := fun call ↦ Empty.elim call

namespace Prog

variable {S : Signature} {ε α β σ : Type}

/-- The program that ends with an error. -/
def fail (e : ε) : Prog S ε α := .done (.error e)

/-- The program of one call, ending with its answer. -/
def perform (c : S.Call) : Prog S ε (S.Answer c) := .call c fun answer ↦ .done (.ok answer)

/-- Sequential composition. -/
protected def bind : Prog S ε α → (α → Prog S ε β) → Prog S ε β
  | .done (.ok a), next => next a
  | .done (.error e), _ => .done (.error e)
  | .call c rest, next => .call c fun answer ↦ (rest answer).bind next

instance : Monad (Prog S ε) where
  pure a := .done (.ok a)
  bind := Prog.bind

/-- Changes the error a program ends with. -/
def mapError (f : ε → ε) : Prog S ε α → Prog S ε α
  | .done result => .done (result.mapError f)
  | .call c next => .call c fun answer ↦ (next answer).mapError f

/-- Goes on with the result of a program, be it an error. -/
def result : Prog S ε α → Prog S ε (Except ε α)
  | .done result => .done (.ok result)
  | .call c next => .call c fun answer ↦ (next answer).result

/-- Runs a program alone: its result, and the state it leaves. -/
def run (exec : Machine S σ) : Prog S ε α → σ → Except ε α × σ
  | .done result, s => (result, s)
  | .call c next, s => (next (exec c s).1).run exec (exec c s).2

@[simp] theorem pure_bind (a : α) (next : α → Prog S ε β) : (pure a >>= next) = next a := rfl

@[simp] theorem fail_bind (e : ε) (next : α → Prog S ε β) :
    (fail e >>= next) = (fail e : Prog S ε β) := rfl

@[simp] theorem call_bind (c : S.Call) (rest : S.Answer c → Prog S ε α)
    (next : α → Prog S ε β) :
    (call c rest >>= next) = call c fun answer ↦ rest answer >>= next := rfl

@[simp] theorem perform_bind (c : S.Call) (next : S.Answer c → Prog S ε β) :
    (perform c >>= next) = call c next := rfl

@[simp] theorem run_pure (exec : Machine S σ) (a : α) (s : σ) :
    (pure a : Prog S ε α).run exec s = (.ok a, s) := rfl

@[simp] theorem run_done (exec : Machine S σ) (result : Except ε α) (s : σ) :
    (done result : Prog S ε α).run exec s = (result, s) := rfl

@[simp] theorem run_fail (exec : Machine S σ) (e : ε) (s : σ) :
    (fail e : Prog S ε α).run exec s = (.error e, s) := rfl

@[simp] theorem run_call (exec : Machine S σ) (c : S.Call) (next : S.Answer c → Prog S ε α)
    (s : σ) : (call c next).run exec s = (next (exec c s).1).run exec (exec c s).2 := rfl

/-- The rule of sequential composition. -/
theorem run_bind (exec : Machine S σ) (p : Prog S ε α) (next : α → Prog S ε β) (s : σ) :
    (p >>= next).run exec s =
      match p.run exec s with
      | (.ok a, s') => (next a).run exec s'
      | (.error e, s') => (.error e, s') := by
  induction p generalizing s with
  | done result => cases result <;> rfl
  | call c rest ih => exact ih (exec c s).1 (exec c s).2

theorem run_bind_of_ok {exec : Machine S σ} {p : Prog S ε α} {next : α → Prog S ε β} {s s' : σ}
    {a : α} (h : p.run exec s = (.ok a, s')) :
    (p >>= next).run exec s = (next a).run exec s' := by
  rw [run_bind, h]

theorem run_bind_of_error {exec : Machine S σ} {p : Prog S ε α} {next : α → Prog S ε β} {s s' : σ}
    {e : ε} (h : p.run exec s = (.error e, s')) :
    (p >>= next).run exec s = (.error e, s') := by
  rw [run_bind, h]

theorem run_mapError (exec : Machine S σ) (f : ε → ε) (p : Prog S ε α) (s : σ) :
    (p.mapError f).run exec s = ((p.run exec s).1.mapError f, (p.run exec s).2) := by
  induction p generalizing s with
  | done result => rfl
  | call c rest ih => exact ih (exec c s).1 (exec c s).2

/-- What every call keeps, a program keeps. -/
theorem run_keeps {exec : Machine S σ} {P : σ → Prop} (hcall : ∀ c s, P s → P (exec c s).2)
    (p : Prog S ε α) {s : σ} (h : P s) : P (p.run exec s).2 := by
  induction p generalizing s with
  | done result => exact h
  | call c rest ih => exact ih (exec c s).1 (hcall c s h)

theorem run_result (exec : Machine S σ) (p : Prog S ε α) (s : σ) :
    p.result.run exec s = (.ok (p.run exec s).1, (p.run exec s).2) := by
  induction p generalizing s with
  | done result => rfl
  | call c rest ih => exact ih (exec c s).1 (exec c s).2

theorem run_of_mapError {exec : Machine S σ} {f : ε → ε} {p : Prog S ε α} {s s' : σ} {a : α}
    (h : (p.mapError f).run exec s = (.ok a, s')) : p.run exec s = (.ok a, s') := by
  rw [run_mapError] at h
  match hp : p.run exec s with
  | (.ok b, mid) =>
    rw [hp] at h
    exact h
  | (.error e, mid) =>
    rw [hp] at h
    cases h

/-- A composition that ends well: its first part does, and the second one from there. -/
theorem run_bind_eq_ok {exec : Machine S σ} {p : Prog S ε α} {next : α → Prog S ε β} {s s' : σ}
    {b : β} (h : (p >>= next).run exec s = (.ok b, s')) :
    ∃ a mid, p.run exec s = (.ok a, mid) ∧ (next a).run exec mid = (.ok b, s') := by
  rw [run_bind] at h
  match hp : p.run exec s with
  | (.ok a, mid) =>
    rw [hp] at h
    exact ⟨a, mid, rfl, h⟩
  | (.error e, mid) =>
    rw [hp] at h
    cases h

/-- A composition that ends with an error: its first part does, or the second one from there. -/
theorem run_bind_eq_error {exec : Machine S σ} {p : Prog S ε α} {next : α → Prog S ε β} {s s' : σ}
    {e : ε} (h : (p >>= next).run exec s = (.error e, s')) :
    p.run exec s = (.error e, s') ∨
      ∃ a mid, p.run exec s = (.ok a, mid) ∧ (next a).run exec mid = (.error e, s') := by
  rw [run_bind] at h
  match hp : p.run exec s with
  | (.ok a, mid) =>
    rw [hp] at h
    exact Or.inr ⟨a, mid, rfl, h⟩
  | (.error e', mid) =>
    rw [hp] at h
    cases h
    exact Or.inl rfl

/-! ### Programs of calls of one kind -/

/-- Every call the program can make is of the given kind, and so is every error it can end with. -/
def Only (kind : S.Call → Prop) (raised : ε → Prop) : Prog S ε α → Prop
  | .done (.ok _) => True
  | .done (.error e) => raised e
  | .call c next => kind c ∧ ∀ answer, (next answer).Only kind raised

section Only

variable {kind kind' : S.Call → Prop} {raised : ε → Prop} {p : Prog S ε α} {exec : Machine S σ}

theorem only_bind {next : α → Prog S ε β} (hp : p.Only kind raised)
    (hnext : ∀ a, (next a).Only kind raised) : (p >>= next).Only kind raised := by
  induction p with
  | done result =>
    cases result with
    | ok a => exact hnext a
    | error e => exact hp
  | call c rest ih => exact ⟨hp.1, fun answer ↦ ih answer (hp.2 answer)⟩

theorem only_mono (h : ∀ c, kind c → kind' c) (hp : p.Only kind raised) : p.Only kind' raised := by
  induction p with
  | done result => cases result <;> exact hp
  | call c rest ih => exact ⟨h c hp.1, fun answer ↦ ih answer (hp.2 answer)⟩

/-- A program of calls that keep the state keeps the state. -/
theorem run_of_only (hkind : ∀ c, kind c → ∀ s, (exec c s).2 = s) (hp : p.Only kind raised)
    (s : σ) :
    p.run exec s = ((p.run exec s).1, s) := by
  induction p generalizing s with
  | done result => rfl
  | call c rest ih =>
    have hstate := hkind c hp.1 s
    rw [run_call, hstate]
    exact ih _ (hp.2 _) s

/-- The result of a program of calls that keep the state depends only on their answers. -/
theorem run_congr (hkind : ∀ c, kind c → ∀ s, (exec c s).2 = s) (hp : p.Only kind raised) {s s' : σ}
    (hsame : ∀ c, kind c → (exec c s).1 = (exec c s').1) :
    (p.run exec s).1 = (p.run exec s').1 := by
  induction p with
  | done result => rfl
  | call c rest ih =>
    rw [run_call, run_call, hkind c hp.1, hkind c hp.1, hsame c hp.1]
    exact ih _ (hp.2 _)

theorem raised_of_run (hp : p.Only kind raised) {s s' : σ} {e : ε}
    (h : p.run exec s = (.error e, s')) : raised e := by
  induction p generalizing s with
  | done result =>
    cases h
    exact hp
  | call c rest ih => exact ih _ (hp.2 _) h

end Only

end Prog

end NevelCore.Foundations
