import NevelCore.Foundations.AtomicProgram

/-!
# Programs that take notes

A program whose only call is to note down a value. `collect` keeps the notes, the latest first.
`Yields` says what a run comes to whatever had been noted before: the program ends with a result,
not with an error, and everything it noted meets a condition. It has rules for sequences
(`Yields.bind`) and for loops over a list (`yields_foldlM`), in which the value carried from round
to round encodes that of a pure loop.
-/

set_option autoImplicit false
set_option relaxedAutoImplicit false

namespace NevelCore.Foundations

/-- The signature whose only call notes a value. -/
def notes (ρ : Type) : Signature := ⟨ρ, fun _ ↦ Unit⟩

/-- The machine that keeps the notes. -/
def collect {ρ : Type} : Machine (notes ρ) (List ρ) := fun note kept ↦ ((), note :: kept)

variable {ρ ε α β γ : Type}

/-- Notes a value. -/
def takeNote (note : ρ) : Prog (notes ρ) ε Unit := Prog.perform (S := notes ρ) note

/-- The program ends with a result, and notes only values that meet the condition. -/
def Yields (p : Prog (notes ρ) ε α) (a : α) (noted : ρ → Prop) : Prop :=
  ∀ kept, ∃ new, p.run collect kept = (.ok a, new ++ kept) ∧ ∀ note ∈ new, noted note

theorem yields_pure (a : α) (noted : ρ → Prop) :
    Yields (pure a : Prog (notes ρ) ε α) a noted :=
  fun _ ↦ ⟨[], rfl, List.forall_mem_nil _⟩

theorem yields_takeNote {note : ρ} {noted : ρ → Prop} (h : noted note) :
    Yields (takeNote note : Prog (notes ρ) ε Unit) () noted :=
  fun _ ↦ ⟨[note], rfl, List.forall_mem_singleton.mpr h⟩

variable {noted noted' : ρ → Prop} {p : Prog (notes ρ) ε α} {a : α}

theorem Yields.mono (h : Yields p a noted) (himp : ∀ note, noted note → noted' note) :
    Yields p a noted' := by
  intro kept
  obtain ⟨new, hrun, hnew⟩ := h kept
  exact ⟨new, hrun, fun note hnote ↦ himp note (hnew note hnote)⟩

theorem Yields.bind {next : α → Prog (notes ρ) ε β} {b : β} (h : Yields p a noted)
    (hnext : Yields (next a) b noted) : Yields (p >>= next) b noted := by
  intro kept
  obtain ⟨new, hrun, hnew⟩ := h kept
  obtain ⟨new', hrun', hnew'⟩ := hnext (new ++ kept)
  refine ⟨new' ++ new, ?_, ?_⟩
  · rw [Prog.run_bind_of_ok hrun, hrun', List.append_assoc]
  · exact List.forall_mem_append.mpr ⟨hnew', hnew⟩

theorem noted_foldl {g : γ → α → γ} {noted : γ → ρ → Prop}
    (hweaker : ∀ m a note, noted m note → noted (g m a) note) (items : List α) {m : γ} {note : ρ}
    (h : noted m note) : noted (items.foldl g m) note := by
  induction items generalizing m with
  | nil => exact h
  | cons a items ih => exact ih (hweaker m a note h)

/-- The rule of loops. The condition on the notes may change with the carried value as long as it
becomes no stronger. -/
theorem yields_foldlM {f : β → α → Prog (notes ρ) ε β} {g : γ → α → γ} (encode : γ → β)
    (noted : γ → ρ → Prop) (hweaker : ∀ m a note, noted m note → noted (g m a) note)
    (hstep : ∀ m a, Yields (f (encode m) a) (encode (g m a)) (noted (g m a)))
    (items : List α) (m : γ) :
    Yields (items.foldlM f (encode m)) (encode (items.foldl g m)) (noted (items.foldl g m)) := by
  induction items generalizing m with
  | nil => exact yields_pure _ _
  | cons a items ih =>
    exact ((hstep m a).mono fun _ ↦ noted_foldl hweaker items).bind (ih (g m a))

end NevelCore.Foundations
