import NevelCore.Foundations.AtomicProgram

/-!
# Interleavings of two programs

Two programs on one machine, each call being one atomic step. `Interleaves` is the relation of the
two programs, the state they start in, and the results and the state they can end with, for every
order of their steps and under a condition on the steps.

The rule is that of rely and guarantee, over phases. A `Protocol` says what holds of the state in
each phase, and how each of the two programs may move the phase. A program conforms to it
(`Protocol.Conforms`) if each of its steps moves the phase as it may, whatever the other one has
done before. Conforming composes along a sequence (`Conforms.bind`), and two programs that conform
end in a phase where the postconditions of both hold (`Protocol.interleaves_spec`). A program that
only reads gets in a phase that does not change the result that it has alone
(`Protocol.conforms_of_only`).
-/

set_option autoImplicit false
set_option relaxedAutoImplicit false

namespace NevelCore.Foundations

variable {S : Signature} {ε α β σ ι : Type}

/-! ### Runs under a condition on the steps -/

/-- Every step of a program that runs alone is allowed. -/
def Prog.Along (exec : Machine S σ) (allowed : S.Call → σ → Prop) : Prog S ε α → σ → Prop
  | .done _, _ => True
  | .call c next, s => allowed c s ∧ (next (exec c s).1).Along exec allowed (exec c s).2

/-- The ways two programs run interleaved, when every step is allowed. -/
inductive Interleaves (exec : Machine S σ) (allowed : S.Call → σ → Prop) :
    Prog S ε α → Prog S ε β → σ → Except ε α → Except ε β → σ → Prop
  | done (r : Except ε α) (r' : Except ε β) (s : σ) :
      Interleaves exec allowed (.done r) (.done r') s r r' s
  | left {c : S.Call} {next : S.Answer c → Prog S ε α} {q : Prog S ε β} {s s' : σ}
      {r : Except ε α} {r' : Except ε β} (allows : allowed c s)
      (rest : Interleaves exec allowed (next (exec c s).1) q (exec c s).2 r r' s') :
      Interleaves exec allowed (.call c next) q s r r' s'
  | right {c : S.Call} {p : Prog S ε α} {next : S.Answer c → Prog S ε β} {s s' : σ}
      {r : Except ε α} {r' : Except ε β} (allows : allowed c s)
      (rest : Interleaves exec allowed p (next (exec c s).1) (exec c s).2 r r' s') :
      Interleaves exec allowed p (.call c next) s r r' s'

section Runs

variable {exec : Machine S σ} {allowed : S.Call → σ → Prop}

theorem Prog.along_bind {p : Prog S ε α} {next : α → Prog S ε β} {s : σ}
    (hp : p.Along exec allowed s)
    (hnext : ∀ a s', p.run exec s = (.ok a, s') → (next a).Along exec allowed s') :
    (p >>= next).Along exec allowed s := by
  induction p generalizing s with
  | done result =>
    cases result with
    | ok a => exact hnext a s rfl
    | error e => trivial
  | call c rest ih => exact ⟨hp.1, ih _ hp.2 hnext⟩

theorem Prog.along_of_only {kind : S.Call → Prop} {raised : ε → Prop} {p : Prog S ε α}
    (hkind : ∀ c, kind c → ∀ s, allowed c s) (hp : p.Only kind raised) (s : σ) :
    p.Along exec allowed s := by
  induction p generalizing s with
  | done result => trivial
  | call c rest ih => exact ⟨hkind c hp.1 s, ih _ (hp.2 _) _⟩

theorem Prog.along_of_forall (hallowed : ∀ c s, allowed c s) (p : Prog S ε α) (s : σ) :
    p.Along exec allowed s := by
  induction p generalizing s with
  | done result => trivial
  | call c rest ih => exact ⟨hallowed c s, ih _ _⟩

theorem Interleaves.symm {p : Prog S ε α} {q : Prog S ε β} {s s' : σ} {r : Except ε α}
    {r' : Except ε β} (h : Interleaves exec allowed p q s r r' s') :
    Interleaves exec allowed q p s r' r s' := by
  induction h with
  | done r r' s => exact .done r' r s
  | left allows _ ih => exact .right allows ih
  | right allows _ ih => exact .left allows ih

/-- The left program makes its first steps alone. -/
theorem Interleaves.left_run {γ : Type} {p : Prog S ε α} {next : α → Prog S ε γ} {q : Prog S ε β}
    {s mid s' : σ} {a : α} {r : Except ε γ} {r' : Except ε β} (hp : p.Along exec allowed s)
    (hrun : p.run exec s = (.ok a, mid))
    (h : Interleaves exec allowed (next a) q mid r r' s') :
    Interleaves exec allowed (p >>= next) q s r r' s' := by
  induction p generalizing s with
  | done result =>
    cases hrun
    exact h
  | call c rest ih => exact .left hp.1 (ih _ hp.2 hrun)

/-- One program after the other. -/
theorem Interleaves.serial {p : Prog S ε α} {q : Prog S ε β} {s : σ}
    (hp : p.Along exec allowed s) (hq : q.Along exec allowed (p.run exec s).2) :
    Interleaves exec allowed p q s (p.run exec s).1 (q.run exec (p.run exec s).2).1
      (q.run exec (p.run exec s).2).2 := by
  induction p generalizing s with
  | done result =>
    change q.Along exec allowed s at hq
    change Interleaves exec allowed (.done result) q s result (q.run exec s).1 (q.run exec s).2
    induction q generalizing s with
    | done result' => exact .done result result' s
    | call c rest ih => exact .right hq.1 (ih _ trivial hq.2)
  | call c rest ih => exact .left hp.1 (ih _ hp.2 hq)

end Runs

/-! ### Rely and guarantee -/

/-- The two programs. -/
inductive Side where
  | left
  | right
deriving DecidableEq

namespace Side

def other : Side → Side
  | left => right
  | right => left

@[simp] theorem other_other (side : Side) : side.other.other = side := by
  cases side <;> rfl

/-- One value for each side. -/
def pick (l r : α) : Side → α
  | left => l
  | right => r

end Side

/-- What two programs on a machine keep to: which steps are allowed, what holds of the state in each
phase, and how each program may move the phase. -/
structure Protocol (S : Signature) (σ ι : Type) where
  exec : Machine S σ
  allowed : S.Call → σ → Prop
  holds : ι → σ → Prop
  moves : Side → ι → ι → Prop
  stays : ∀ side i, moves side i i
  trans : ∀ side i j k, moves side i j → moves side j k → moves side i k

namespace Protocol

variable (P : Protocol S σ ι) (side : Side)

/-- A program of one side, from a phase on, moves the phase as that side may, whatever the other
side does in between, and ends with its postcondition. -/
def Conforms (post : ι → Except ε α → Prop) : Prog S ε α → ι → Prop
  | .done r, i => post i r
  | .call c next, i => ∀ j s, P.moves side.other i j → P.holds j s → P.allowed c s →
      ∃ k, P.moves side j k ∧ P.holds k (P.exec c s).2 ∧ Conforms post (next (P.exec c s).1) k

variable {P side} {post post' : ι → Except ε α → Prop} {p : Prog S ε α} {i j : ι}

/-- Conforming lasts while the other side moves the phase, if the postcondition does. -/
theorem Conforms.later (h : P.Conforms side post p i) (hmoves : P.moves side.other i j)
    (hpost : ∀ i j r, P.moves side.other i j → post i r → post j r) :
    P.Conforms side post p j := by
  cases p with
  | done r => exact hpost i j r hmoves h
  | call c next =>
    intro k s hk hs hallowed
    exact h k s (P.trans _ _ _ _ hmoves hk) hs hallowed

theorem Conforms.mono (h : P.Conforms side post p i) (hpost : ∀ j r, post j r → post' j r) :
    P.Conforms side post' p i := by
  induction p generalizing i with
  | done r => exact hpost i r h
  | call c next ih =>
    intro j s hj hs hallowed
    obtain ⟨k, hk, hs', hnext⟩ := h j s hj hs hallowed
    exact ⟨k, hk, hs', ih _ hnext⟩

/-- The rule of sequential composition. -/
theorem Conforms.bind {next : α → Prog S ε β} {last : ι → Except ε β → Prop}
    (h : P.Conforms side post p i) (hok : ∀ j a, post j (.ok a) → P.Conforms side last (next a) j)
    (herror : ∀ j e, post j (.error e) → last j (.error e)) :
    P.Conforms side last (p >>= next) i := by
  induction p generalizing i with
  | done r =>
    cases r with
    | ok a => exact hok i a h
    | error e => exact herror i e h
  | call c rest ih =>
    intro j s hj hs hallowed
    obtain ⟨k, hk, hs', hrest⟩ := h j s hj hs hallowed
    exact ⟨k, hk, hs', ih _ hrest⟩

/-- The rule of a call that keeps the state. -/
theorem conforms_read {c : S.Call} {next : S.Answer c → Prog S ε α}
    (hkeeps : ∀ s, (P.exec c s).2 = s)
    (h : ∀ j s, P.moves side.other i j → P.holds j s → P.allowed c s →
      P.Conforms side post (next (P.exec c s).1) j) :
    P.Conforms side post (Prog.perform c >>= next) i := by
  intro j s hj hs hallowed
  refine ⟨j, P.stays side j, ?_, h j s hj hs hallowed⟩
  rw [hkeeps]
  exact hs

/-- The rule of a call that changes the state. -/
theorem conforms_write {c : S.Call} {next : S.Answer c → Prog S ε α}
    (h : ∀ j s, P.moves side.other i j → P.holds j s → P.allowed c s →
      ∃ k, P.moves side j k ∧ P.holds k (P.exec c s).2 ∧
        P.Conforms side post (next (P.exec c s).1) k) :
    P.Conforms side post (Prog.perform c >>= next) i := h

section Reads

variable {kind : S.Call → Prop} {raised : ε → Prop}

/-- A program that only reads keeps the phase, up to what the other side does. -/
theorem conforms_of_reads (hkind : ∀ c, kind c → ∀ s, (P.exec c s).2 = s)
    (hp : p.Only kind raised) : P.Conforms side (fun j _ ↦ P.moves side.other i j) p i := by
  have hfrom : ∀ j, P.moves side.other i j →
      P.Conforms side (fun j _ ↦ P.moves side.other i j) p j := by
    intro j hj
    induction p generalizing j with
    | done r => exact hj
    | call c next ih =>
      intro k s hk hs _
      have hik := P.trans _ _ _ _ hj hk
      refine ⟨k, P.stays side k, ?_, ih _ (hp.2 _) k hik⟩
      rw [hkind c hp.1]
      exact hs
  exact hfrom i (P.stays _ i)

/-- A program that only reads has, if the phase is still the same, the result that it has alone on
every state that gives the answers of this phase. -/
theorem conforms_of_only (hkind : ∀ c, kind c → ∀ s, (P.exec c s).2 = s)
    (hback : ∀ j, P.moves side.other i j → P.moves side.other j i → j = i) {alike : σ → Prop}
    (halike : ∀ s s', P.holds i s → alike s' → ∀ c, kind c → (P.exec c s).1 = (P.exec c s').1)
    (hp : p.Only kind raised) :
    P.Conforms side
      (fun j r ↦ P.moves side.other i j ∧ (j = i → ∀ s, alike s → r = (p.run P.exec s).1)) p i := by
  induction p with
  | done r => exact ⟨P.stays _ i, fun _ _ _ ↦ rfl⟩
  | call c next ih =>
    intro j s hj hs hallowed
    refine ⟨j, P.stays side j, ?_, ?_⟩
    · rw [hkind c hp.1]
      exact hs
    · by_cases hji : j = i
      · subst hji
        refine (ih _ (hp.2 _)).mono fun k r hpost ↦ ⟨hpost.1, fun hk s' hs' ↦ ?_⟩
        rw [Prog.run_call, hkind c hp.1 s', ← halike s s' hs hs' c hp.1]
        exact hpost.2 hk s' hs'
      · -- the phase has left `i` and does not come back
        refine (conforms_of_reads hkind (hp.2 _)).mono fun k r hk ↦ ?_
        refine ⟨P.trans _ _ _ _ hj hk, fun hki ↦ ?_⟩
        subst hki
        exact absurd (hback j hj hk) hji

end Reads

/-- Two programs that conform end in a phase with the postconditions of both. -/
theorem interleaves_spec {q : Prog S ε β} {last : ι → Except ε β → Prop} {s s' : σ}
    {r : Except ε α} {r' : Except ε β}
    (h : Interleaves P.exec P.allowed p q s r r' s') (hs : P.holds i s)
    (hp : P.Conforms .left post p i) (hq : P.Conforms .right last q i)
    (hpost : ∀ i j r, P.moves .right i j → post i r → post j r)
    (hlast : ∀ i j r, P.moves .left i j → last i r → last j r) :
    ∃ j, P.holds j s' ∧ post j r ∧ last j r' := by
  induction h generalizing i with
  | done r r' s => exact ⟨i, hs, hp, hq⟩
  | left allows _ ih =>
    obtain ⟨k, hk, hs', hnext⟩ := hp i _ (P.stays _ i) hs allows
    exact ih hs' hnext (hq.later hk hlast)
  | right allows _ ih =>
    obtain ⟨k, hk, hs', hnext⟩ := hq i _ (P.stays _ i) hs allows
    exact ih hs' (hp.later hk hpost) hnext

end Protocol

end NevelCore.Foundations
