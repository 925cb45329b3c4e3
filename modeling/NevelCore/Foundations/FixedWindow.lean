import Mathlib.Data.Int.Order.Basic
import Mathlib.Data.List.Chain
import Mathlib.Data.List.Count
import Mathlib.Data.List.Range

/-!
# Counting in fixed windows

A fixed window opens with a call and stays open for some time. The first call after that opens the
next one. Each call is marked with the start of its window and with its rank there (`marks`).

Windows do not overlap: of two calls in different windows, the earlier one is made before the later
window opens, and the starts are a window length apart (`pairwise_marks`). In each window the ranks
count from one (`ranks_marks`). A time interval of the length of a window meets at most two of them,
wherever it begins (`exists_two_starts`), so it holds at most twice what a window can hold
(`countP_interval_le`).
-/

set_option autoImplicit false
set_option relaxedAutoImplicit false

namespace NevelCore.Foundations

/-- A call: when it was made, when its window opened, and which call of the window it is. -/
structure Mark where
  time : ℤ
  start : ℤ
  rank : ℕ

namespace FixedWindow

variable (length : ℤ)

/-- The mark of a call after the last one. -/
def next (last : Option Mark) (time : ℤ) : Mark :=
  match last with
  | none => ⟨time, time, 1⟩
  | some last =>
    if length ≤ time - last.start then ⟨time, time, 1⟩ else ⟨time, last.start, last.rank + 1⟩

/-- The marks of calls at some times, after a last one. -/
def marksFrom : Option Mark → List ℤ → List Mark
  | _, [] => []
  | last, time :: times => next length last time :: marksFrom (some (next length last time)) times

/-- The marks of calls at some times. -/
def marks (times : List ℤ) : List Mark := marksFrom length none times

/-- How the marks of an earlier and a later call relate: their windows are the same, or the later
one opens after the earlier call and a window length after the earlier window. -/
structure Precedes (a b : Mark) : Prop where
  time_le : a.time ≤ b.time
  windows : a.start = b.start ∧ a.rank < b.rank ∨ a.time ≤ b.start ∧ a.start + length ≤ b.start

/-- The mark of a call is within its window. -/
structure Inside (a : Mark) : Prop where
  start_le : a.start ≤ a.time
  time_lt : a.time < a.start + length

variable {length} {last : Option Mark} {times : List ℤ}

theorem time_next (length : ℤ) (last : Option Mark) (time : ℤ) :
    (next length last time).time = time := by
  unfold next
  split
  · rfl
  · split_ifs <;> rfl

/-- What a call does: it opens a window, or it is the next one of the window that is open. -/
theorem next_some_cases (length : ℤ) (l : Mark) (time : ℤ) :
    l.start + length ≤ time ∧ next length (some l) time = ⟨time, time, 1⟩ ∨
      time < l.start + length ∧ next length (some l) time = ⟨time, l.start, l.rank + 1⟩ := by
  by_cases h : length ≤ time - l.start
  · exact .inl ⟨by omega, if_pos h⟩
  · exact .inr ⟨by omega, if_neg h⟩

theorem inside_next (hlength : 0 < length) {time : ℤ}
    (hlast : ∀ l ∈ last, Inside length l ∧ l.time ≤ time) :
    Inside length (next length last time) := by
  have hopened : Inside length ⟨time, time, 1⟩ := ⟨le_refl _, Int.lt_add_of_pos_right _ hlength⟩
  cases last with
  | none => exact hopened
  | some l =>
    obtain ⟨hinside, hle⟩ := hlast l rfl
    rcases next_some_cases length l time with ⟨-, heq⟩ | ⟨hlt, heq⟩
    · rwa [heq]
    · rw [heq]
      exact ⟨hinside.start_le.trans hle, hlt⟩

theorem precedes_next {l : Mark} {time : ℤ} (hle : l.time ≤ time) :
    Precedes length l (next length (some l) time) := by
  rcases next_some_cases length l time with ⟨hopens, heq⟩ | ⟨-, heq⟩
  · rw [heq]
    exact ⟨hle, .inr ⟨hle, hopens⟩⟩
  · rw [heq]
    exact ⟨hle, .inl ⟨rfl, Nat.lt_succ_self _⟩⟩

theorem map_time_marksFrom (length : ℤ) (last : Option Mark) (times : List ℤ) :
    (marksFrom length last times).map Mark.time = times := by
  induction times generalizing last with
  | nil => rfl
  | cons time times ih => rw [marksFrom, List.map_cons, time_next, ih]

theorem inside_marksFrom (hlength : 0 < length) (htimes : times.Pairwise (· ≤ ·))
    (hlast : ∀ l ∈ last, Inside length l ∧ ∀ time ∈ times, l.time ≤ time) :
    ∀ a ∈ marksFrom length last times, Inside length a := by
  induction times generalizing last with
  | nil => exact List.forall_mem_nil _
  | cons time times ih =>
    obtain ⟨hfirst, htimes⟩ := List.pairwise_cons.mp htimes
    have hnext : Inside length (next length last time) :=
      inside_next hlength fun l hl ↦ ⟨(hlast l hl).1, (hlast l hl).2 time List.mem_cons_self⟩
    refine List.forall_mem_cons.mpr ⟨hnext, ih htimes fun l hl ↦ ?_⟩
    cases hl
    rw [time_next]
    exact ⟨hnext, hfirst⟩

/-- Later marks follow the last one. -/
theorem precedes_marksFrom (hlength : 0 < length) (htimes : times.Pairwise (· ≤ ·)) {l : Mark}
    (hl : Inside length l) (hle : ∀ time ∈ times, l.time ≤ time) :
    ∀ a ∈ marksFrom length (some l) times, Precedes length l a := by
  induction times generalizing l with
  | nil => exact List.forall_mem_nil _
  | cons time times ih =>
    obtain ⟨hfirst, htimes⟩ := List.pairwise_cons.mp htimes
    have hnow := hle time List.mem_cons_self
    have hprecedes : Precedes length l (next length (some l) time) := precedes_next hnow
    have hinside : Inside length (next length (some l) time) :=
      inside_next hlength fun m hm ↦ by
        cases hm
        exact ⟨hl, hnow⟩
    refine List.forall_mem_cons.mpr ⟨hprecedes, fun a ha ↦ ?_⟩
    have hlater := ih htimes hinside (by rwa [time_next]) a ha
    refine ⟨hprecedes.time_le.trans hlater.time_le, ?_⟩
    -- a window that opens later than an intermediate one opens later than the first as well
    rcases hprecedes.windows with ⟨hsame, hrank⟩ | ⟨hopens, hstart⟩
    · rcases hlater.windows with ⟨hsame', hrank'⟩ | ⟨hopens', hstart'⟩
      · exact .inl ⟨hsame.trans hsame', hrank.trans hrank'⟩
      · exact .inr ⟨hprecedes.time_le.trans hopens', hsame ▸ hstart'⟩
    · right
      rcases hlater.windows with ⟨hsame', -⟩ | ⟨hopens', -⟩
      · exact hsame' ▸ ⟨hopens, hstart⟩
      · exact ⟨hprecedes.time_le.trans hopens', hstart.trans (hinside.start_le.trans hopens')⟩

theorem pairwise_marksFrom (hlength : 0 < length) (htimes : times.Pairwise (· ≤ ·))
    (hlast : ∀ l ∈ last, Inside length l ∧ ∀ time ∈ times, l.time ≤ time) :
    (marksFrom length last times).Pairwise (Precedes length) := by
  induction times generalizing last with
  | nil => exact .nil
  | cons time times ih =>
    have hinside := inside_marksFrom hlength htimes hlast _ List.mem_cons_self
    obtain ⟨hfirst, htimes⟩ := List.pairwise_cons.mp htimes
    rw [← time_next length last time] at hfirst
    refine List.pairwise_cons.mpr ⟨precedes_marksFrom hlength htimes hinside hfirst, ih htimes ?_⟩
    intro l hl
    cases hl
    exact ⟨hinside, hfirst⟩

/-- Calls at the same time are in the same window. -/
theorem start_marksFrom_replicate {time : ℤ} (hlast : ∀ l ∈ last, l.start = time) (count : ℕ) :
    ∀ a ∈ marksFrom length last (List.replicate count time), a.start = time := by
  induction count generalizing last with
  | zero => exact List.forall_mem_nil _
  | succ count ih =>
    have hnext : (next length last time).start = time := by
      cases last with
      | none => rfl
      | some l =>
        rcases next_some_cases length l time with ⟨-, heq⟩ | ⟨-, heq⟩
        · rw [heq]
        · rw [heq]
          exact hlast l rfl
    refine List.forall_mem_cons.mpr ⟨hnext, ih fun l hl ↦ ?_⟩
    cases hl
    exact hnext

/-! ### Ranks -/

/-- The number of calls that a window has seen, as the last mark shows it. -/
def seen (last : Option Mark) (start : ℤ) : ℕ :=
  match last with
  | none => 0
  | some l => if l.start = start then l.rank else 0

theorem seen_of_eq {l : Mark} {start : ℤ} (h : l.start = start) : seen (some l) start = l.rank :=
  if_pos h

theorem seen_of_ne {l : Mark} {start : ℤ} (h : l.start ≠ start) : seen (some l) start = 0 :=
  if_neg h

theorem rank_next (hlength : 0 < length) (last : Option Mark) (time : ℤ) :
    (next length last time).rank = seen last (next length last time).start + 1 := by
  cases last with
  | none => rfl
  | some l =>
    rcases next_some_cases length l time with ⟨hopens, heq⟩ | ⟨-, heq⟩
    · rw [heq, seen_of_ne (by dsimp only; omega)]
    · rw [heq, seen_of_eq rfl]

/-- The calls of a window have the ranks that follow those it has seen. -/
theorem ranks_marksFrom (hlength : 0 < length) (htimes : times.Pairwise (· ≤ ·))
    (hlast : ∀ l ∈ last, Inside length l ∧ ∀ time ∈ times, l.time ≤ time) (start : ℤ) :
    ((marksFrom length last times).filter (·.start = start)).map Mark.rank =
      List.range' (seen last start + 1)
        ((marksFrom length last times).countP (·.start = start)) := by
  induction times generalizing last with
  | nil => rfl
  | cons time times ih =>
    have hinside := inside_marksFrom hlength htimes hlast _ List.mem_cons_self
    have hlater := (List.pairwise_cons.mp (pairwise_marksFrom hlength htimes hlast)).1
    obtain ⟨hfirst, htimes⟩ := List.pairwise_cons.mp htimes
    rw [← time_next length last time] at hfirst
    have hnext : ∀ l ∈ some (next length last time), Inside length l ∧ ∀ t ∈ times, l.time ≤ t := by
      intro l hl
      cases hl
      exact ⟨hinside, hfirst⟩
    have hranks := ih htimes hnext
    by_cases hstart : (next length last time).start = start
    · rw [seen_of_eq hstart] at hranks
      rw [marksFrom, List.filter_cons_of_pos (by simpa using hstart), List.map_cons, hranks,
        List.countP_cons_of_pos (by simpa using hstart), List.range'_succ, rank_next hlength,
        hstart]
    · rw [seen_of_ne hstart] at hranks
      rw [marksFrom, List.filter_cons_of_neg (by simpa using hstart), hranks,
        List.countP_cons_of_neg (by simpa using hstart)]
      -- if the window was open before, it is closed now, and no later call is in it
      cases last with
      | none => rfl
      | some l =>
        by_cases hopen : l.start = start
        · have hnone : (marksFrom length (some (next length (some l) time)) times).countP
              (·.start = start) = 0 := by
            refine List.countP_eq_zero.mpr fun a ha ↦ ?_
            rcases next_some_cases length l time with ⟨hopens, heq⟩ | ⟨-, heq⟩
            · have hwindows := (hlater a ha).windows
              rw [heq] at hwindows
              rw [decide_eq_true_eq]
              dsimp only at hwindows
              omega
            · rw [heq] at hstart
              exact absurd hopen hstart
          rw [hnone]
          rfl
        · rw [seen_of_ne hopen]

/-! ### The marks of all calls -/

theorem map_time_marks (length : ℤ) (times : List ℤ) : (marks length times).map Mark.time = times :=
  map_time_marksFrom length none times

theorem start_marks_replicate (time : ℤ) (count : ℕ) :
    ∀ a ∈ marks length (List.replicate count time), a.start = time :=
  start_marksFrom_replicate (by rintro _ ⟨⟩) count

theorem exists_start {P : Mark → Prop} (h : ∀ a b, P a → P b → a.start = b.start) :
    ∃ start, ∀ a, P a → a.start = start := by
  by_cases hsome : ∃ a, P a
  · obtain ⟨a, ha⟩ := hsome
    exact ⟨a.start, fun b hb ↦ h b a hb ha⟩
  · exact ⟨0, fun a ha ↦ absurd ⟨a, ha⟩ hsome⟩

theorem countP_le_add {α : Type} {p q r : α → Bool} (items : List α)
    (h : ∀ a ∈ items, p a = true → q a = true ∨ r a = true) :
    items.countP p ≤ items.countP q + items.countP r := by
  induction items with
  | nil => exact Nat.zero_le _
  | cons a items ih =>
    obtain ⟨ha, hitems⟩ := List.forall_mem_cons.mp h
    have hrest := ih hitems
    rw [List.countP_cons, List.countP_cons, List.countP_cons]
    by_cases hp : p a = true
    · rcases ha hp with hq | hr
      · rw [if_pos hp, if_pos hq]
        omega
      · rw [if_pos hp, if_pos hr]
        omega
    · rw [if_neg hp]
      omega

section Marks

variable (hlength : 0 < length) (htimes : times.Pairwise (· ≤ ·))

include hlength htimes

theorem inside_marks : ∀ a ∈ marks length times, Inside length a :=
  inside_marksFrom hlength htimes nofun

theorem pairwise_marks : (marks length times).Pairwise (Precedes length) :=
  pairwise_marksFrom hlength htimes nofun

/-- In each window the ranks count from one. -/
theorem ranks_marks (start : ℤ) :
    ((marks length times).filter (·.start = start)).map Mark.rank =
      List.range' 1 ((marks length times).countP (·.start = start)) :=
  ranks_marksFrom hlength htimes (by rintro _ ⟨⟩) start

/-- The rank of a call is one more than the number of earlier calls in its window. -/
theorem rank_eq {front back : List Mark} {a : Mark} (h : marks length times = front ++ a :: back) :
    a.rank = front.countP (·.start = a.start) + 1 := by
  have hranks := ranks_marks hlength htimes a.start
  rw [h, List.filter_append, List.filter_cons_of_pos (by simp), List.map_append, List.map_cons]
    at hranks
  have hrank : (List.range' 1 ((front ++ a :: back).countP (·.start = a.start)))[front.countP
      (·.start = a.start)]? = some a.rank := by
    rw [← hranks, List.countP_eq_length_filter,
      List.getElem?_append_right (by rw [List.length_map]), List.length_map, Nat.sub_self,
      List.getElem?_cons_zero]
  obtain ⟨hlt, hrank⟩ := List.getElem?_eq_some_iff.mp hrank
  rw [← hrank, List.getElem_range']
  omega

/-- Windows with different starts are a window length apart. -/
theorem apart {a b : Mark} (ha : a ∈ marks length times) (hb : b ∈ marks length times)
    (h : a.start ≠ b.start) :
    a.time ≤ b.start ∧ a.start + length ≤ b.start ∨
      b.time ≤ a.start ∧ b.start + length ≤ a.start := by
  have : Std.Symm fun a b ↦ Precedes length a b ∨ Precedes length b a := ⟨fun _ _ ↦ Or.symm⟩
  have hpairs := ((pairwise_marks hlength htimes).imp
    (S := fun a b ↦ Precedes length a b ∨ Precedes length b a) Or.inl).forall ha hb
      fun hab ↦ h (congrArg Mark.start hab)
  exact hpairs.imp (fun hab ↦ hab.windows.resolve_left fun hsame ↦ h hsame.1)
    fun hba ↦ hba.windows.resolve_left fun hsame ↦ h hsame.1.symm

/-- A time interval of the length of a window meets at most one window that opens before it and one
that opens in it. -/
theorem exists_two_starts (t : ℤ) :
    ∃ before after, ∀ a ∈ marks length times, t ≤ a.time → a.time < t + length →
      a.start = before ∨ a.start = after := by
  obtain ⟨before, hbefore⟩ := exists_start
    (P := fun a ↦ a ∈ marks length times ∧ t ≤ a.time ∧ a.start < t)
    fun a b ⟨ha, hta, hsa⟩ ⟨hb, htb, hsb⟩ ↦ by
      by_contra hne
      rcases apart hlength htimes ha hb hne with ⟨htime, -⟩ | ⟨htime, -⟩ <;> omega
  obtain ⟨after, hafter⟩ := exists_start
    (P := fun a ↦ a ∈ marks length times ∧ a.time < t + length ∧ t ≤ a.start)
    fun a b ⟨ha, hta, hsa⟩ ⟨hb, htb, hsb⟩ ↦ by
      by_contra hne
      have hina := (inside_marks hlength htimes a ha).start_le
      have hinb := (inside_marks hlength htimes b hb).start_le
      rcases apart hlength htimes ha hb hne with ⟨-, hstart⟩ | ⟨-, hstart⟩ <;> omega
  refine ⟨before, after, fun a ha hle hlt ↦ ?_⟩
  rcases lt_or_ge a.start t with hstart | hstart
  · exact .inl (hbefore a ⟨ha, hle, hstart⟩)
  · exact .inr (hafter a ⟨ha, hlt, hstart⟩)

/-- What happens at most so often in each window happens at most twice as often in any time interval
of the length of a window. -/
theorem countP_interval_le {p : Mark → Bool} {bound : ℕ}
    (h : ∀ start, (marks length times).countP (fun a ↦ p a ∧ a.start = start) ≤ bound) (t : ℤ) :
    (marks length times).countP (fun a ↦ p a ∧ t ≤ a.time ∧ a.time < t + length) ≤ 2 * bound := by
  obtain ⟨before, after, hstarts⟩ := exists_two_starts hlength htimes t
  have hsplit := countP_le_add (marks length times)
    (p := fun a ↦ p a ∧ t ≤ a.time ∧ a.time < t + length)
    (q := fun a ↦ p a ∧ a.start = before) (r := fun a ↦ p a ∧ a.start = after) fun a ha hp ↦ by
      obtain ⟨hpa, hle, hlt⟩ := of_decide_eq_true hp
      exact (hstarts a ha hle hlt).imp (fun hstart ↦ decide_eq_true ⟨hpa, hstart⟩)
        fun hstart ↦ decide_eq_true ⟨hpa, hstart⟩
  have hbefore := h before
  have hafter := h after
  omega

end Marks

end FixedWindow

end NevelCore.Foundations
