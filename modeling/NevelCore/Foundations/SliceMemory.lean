import Mathlib.Data.List.Basic
import Mathlib.Data.List.Range
import Mathlib.Data.List.TakeDrop
import Mathlib.Data.Int.Order.Basic

/-!
# Slices that share memory

A slice of Go is a view of a backing array: a start, a length and a capacity. Slices of the same
array see each other's writes, and appending to a slice writes behind its end, into cells that
another slice may see. `Memory` has the backing arrays, and `SliceRef` is the view.

Memory is described by the contents of its arrays, cut where slices begin and end. A write replaces
one piece of one array (`getElem?_write_self`, `getElem?_write_of_ne`). What a slice reads is a
piece (`read_eq`, `read_first`), and a loop that updates a slice element by element from another
array replaces it as a whole (`exists_zipInto`).
-/

set_option autoImplicit false
set_option relaxedAutoImplicit false

namespace NevelCore.Foundations

variable {α : Type}

/-- The backing arrays of slices. -/
abbrev Memory (α : Type) := List (List α)

/-- Puts items into the cells from a start on. -/
def overwrite (cells : List α) (start : ℕ) (items : List α) : List α :=
  cells.take start ++ items ++ cells.drop (start + items.length)

/-- Puts items into an array. -/
def Memory.write (m : Memory α) (array start : ℕ) (items : List α) : Memory α :=
  m.modify array fun cells ↦ overwrite cells start items

/-- A slice: its array, where it starts there, its length, and how far it can be extended. -/
structure SliceRef where
  array : ℕ
  start : ℕ
  length : ℕ
  capacity : ℕ
deriving DecidableEq

namespace SliceRef

/-- `make`. -/
def make (m : Memory α) (zero : α) (length capacity : ℕ) : SliceRef × Memory α :=
  (⟨m.length, 0, length, capacity⟩, m ++ [List.replicate capacity zero])

/-- The elements of a slice. -/
def read (s : SliceRef) (m : Memory α) : List α := ((m.getD s.array []).drop s.start).take s.length

/-- `s[low:high]`, or a panic. -/
def slice (s : SliceRef) (low high : ℤ) : Option SliceRef :=
  if 0 ≤ low ∧ low ≤ high ∧ high ≤ s.capacity then
    some ⟨s.array, s.start + low.toNat, (high - low).toNat, s.capacity - low.toNat⟩
  else none

/-- `append`: in place while the capacity lasts, and otherwise into a new array. -/
def append (s : SliceRef) (m : Memory α) (items : List α) : SliceRef × Memory α :=
  if s.length + items.length ≤ s.capacity then
    ({ s with length := s.length + items.length }, m.write s.array (s.start + s.length) items)
  else
    (⟨m.length, 0, s.length + items.length, s.length + items.length⟩, m ++ [s.read m ++ items])

/-- `copy`. -/
def copy (dst src : SliceRef) (m : Memory α) : Memory α :=
  m.write dst.array dst.start ((src.read m).take dst.length)

/-- `s[i]`, or a panic. -/
def get (s : SliceRef) (m : Memory α) (i : ℕ) : Option α := (s.read m)[i]?

/-- `s[i] = a`, or a panic. -/
def set (s : SliceRef) (m : Memory α) (i : ℕ) (a : α) : Option (Memory α) :=
  if i < s.length then some (m.write s.array (s.start + i) [a]) else none

/-- `dst[i] = f(dst[i], src[i])`. -/
def zipAt (f : α → α → α) (dst src : SliceRef) (m : Memory α) (i : ℕ) : Option (Memory α) := do
  let a ← dst.get m i
  let b ← src.get m i
  dst.set m i (f a b)

/-- `zipAt` for every index in the range of `src`. -/
def zipInto (f : α → α → α) (dst src : SliceRef) (m : Memory α) : Option (Memory α) :=
  (List.range src.length).foldlM (zipAt f dst src) m

end SliceRef

/-! ### Writing -/

theorem overwrite_append {front old items back : List α} (h : old.length = items.length) :
    overwrite (front ++ old ++ back) front.length items = front ++ items ++ back := by
  have hback : (front ++ old ++ back).drop (front.length + items.length) = back := by
    rw [← h, ← List.length_append, List.drop_left]
  rw [overwrite, hback, List.append_assoc front old, List.take_left]

namespace Memory

variable {m : Memory α} {array other start : ℕ} {front old items back : List α}

theorem getElem?_write_self (harray : m[array]? = some (front ++ old ++ back))
    (hstart : start = front.length) (hlength : old.length = items.length) :
    (m.write array start items)[array]? = some (front ++ items ++ back) := by
  rw [write, List.getElem?_modify_eq, harray, hstart]
  exact congrArg some (overwrite_append hlength)

/-- Writing a whole array. -/
theorem getElem?_write_all (harray : m[array]? = some old) (hlength : old.length = items.length) :
    (m.write array 0 items)[array]? = some items := by
  have hcells : m[array]? = some ([] ++ old ++ []) := by
    rw [harray, List.nil_append, List.append_nil]
  have hstart : 0 = ([] : List α).length := rfl
  have hwritten := getElem?_write_self hcells hstart hlength
  rwa [List.nil_append, List.append_nil] at hwritten

theorem getElem?_write_of_ne (h : array ≠ other) :
    (m.write array start items)[other]? = m[other]? := by
  rw [write, List.getElem?_modify_ne _ _ h]

end Memory

namespace SliceRef

variable {m : Memory α} {s dst src : SliceRef} {front piece items back : List α}

/-- A slice reads the piece of its array that it covers. -/
theorem read_eq (harray : m[s.array]? = some (front ++ piece ++ back))
    (hstart : s.start = front.length) (hlength : s.length = piece.length) : s.read m = piece := by
  rw [read, List.getD_eq_getElem?_getD, harray, Option.getD_some, hstart, hlength,
    List.append_assoc, List.drop_left, List.take_left]

/-- A slice from the start of an array reads the first piece. -/
theorem read_first (harray : m[s.array]? = some (piece ++ back)) (hstart : s.start = 0)
    (hlength : s.length = piece.length) : s.read m = piece := by
  have hcells : m[s.array]? = some ([] ++ piece ++ back) := by rw [harray, List.nil_append]
  exact read_eq hcells hstart hlength

/-- A slice of a whole array reads all of it. -/
theorem read_all (harray : m[s.array]? = some piece) (hstart : s.start = 0)
    (hlength : s.length = piece.length) : s.read m = piece := by
  have hcells : m[s.array]? = some (piece ++ []) := by rw [harray, List.append_nil]
  exact read_first hcells hstart hlength

theorem slice_of_le {low high : ℤ} (h : 0 ≤ low ∧ low ≤ high ∧ high ≤ s.capacity) :
    s.slice low high =
      some ⟨s.array, s.start + low.toNat, (high - low).toNat, s.capacity - low.toNat⟩ :=
  if_pos h

theorem append_of_le (h : s.length + items.length ≤ s.capacity) :
    s.append m items =
      ({ s with length := s.length + items.length }, m.write s.array (s.start + s.length) items) :=
  if_pos h

theorem read_congr {m' : Memory α} (h : m'[s.array]? = m[s.array]?) : s.read m' = s.read m := by
  rw [read, read, List.getD_eq_getElem?_getD, List.getD_eq_getElem?_getD, h]

/-- One round of the loop. -/
theorem exists_zipAt {f : α → α → α} {i : ℕ} {old : List α} {a b : α}
    (hdst : m[dst.array]? = some (front ++ piece ++ (a :: old) ++ back))
    (hstart : dst.start = front.length) (hlength : dst.length = piece.length + (a :: old).length)
    (hi : i = piece.length) (hsrc : src.get m i = some b) :
    ∃ m', zipAt f dst src m i = some m' ∧
      m'[dst.array]? = some (front ++ (piece ++ [f a b]) ++ old ++ back) ∧
      ∀ other, dst.array ≠ other → m'[other]? = m[other]? := by
  have hwhole : m[dst.array]? = some (front ++ (piece ++ a :: old) ++ back) := by
    rw [hdst, List.append_assoc front]
  have hread : dst.read m = piece ++ a :: old :=
    read_eq hwhole hstart (by rw [hlength, List.length_append])
  have hget : dst.get m i = some a := by
    rw [get, hread, hi, List.getElem?_append_right (le_refl _), Nat.sub_self,
      List.getElem?_cons_zero]
  have hset : dst.set m i (f a b) = some (m.write dst.array (dst.start + i) [f a b]) :=
    if_pos (by rw [hlength, hi, List.length_cons]; omega)
  refine ⟨m.write dst.array (dst.start + i) [f a b], ?_, ?_, fun other hne ↦
    Memory.getElem?_write_of_ne hne⟩
  · rw [zipAt, hget, hsrc]
    exact hset
  · have hcells : m[dst.array]? = some ((front ++ piece) ++ [a] ++ (old ++ back)) := by
      rw [hdst]
      simp only [List.append_assoc, List.cons_append, List.nil_append]
    have hstart' : dst.start + i = (front ++ piece).length := by
      rw [hstart, hi, List.length_append]
    have hlength' : [a].length = [f a b].length := rfl
    rw [Memory.getElem?_write_self hcells hstart' hlength']
    simp only [List.append_assoc]

/-- So many rounds of the loop combine so many elements, and the others are as before. -/
theorem exists_zipRounds (f : α → α → α)
    (hdst : m[dst.array]? = some (front ++ piece ++ back)) (hstart : dst.start = front.length)
    (hlength : dst.length = piece.length) (hsrc : (src.read m).length = src.length)
    (hsame : src.length = piece.length) (hne : dst.array ≠ src.array) {n : ℕ}
    (hn : n ≤ src.length) :
    ∃ m', (List.range n).foldlM (zipAt f dst src) m = some m' ∧
      m'[dst.array]? = some
        (front ++ (List.zipWith f piece (src.read m)).take n ++ piece.drop n ++ back) ∧
      ∀ other, dst.array ≠ other → m'[other]? = m[other]? := by
  induction n with
  | zero => exact ⟨m, rfl, by rw [List.take_zero, List.append_nil]; exact hdst, fun _ _ ↦ rfl⟩
  | succ n ih =>
    obtain ⟨m₁, hfold, hcells, hframe⟩ := ih (Nat.le_of_succ_le hn)
    have hpiece : n < piece.length := by omega
    have hitems : n < (src.read m).length := by omega
    have hget : src.get m₁ n = some (src.read m)[n] := by
      rw [get, read_congr (hframe src.array hne), List.getElem?_eq_getElem hitems]
    have hdone : ((List.zipWith f piece (src.read m)).take n).length = n := by
      rw [List.length_take, List.length_zipWith]
      omega
    rw [List.drop_eq_getElem_cons hpiece] at hcells
    obtain ⟨m₂, hround, hcells', hframe'⟩ := exists_zipAt (f := f) hcells hstart
      (by rw [hdone, List.length_cons, List.length_drop]; omega) hdone.symm hget
    refine ⟨m₂, ?_, ?_, fun other h ↦ (hframe' other h).trans (hframe other h)⟩
    · rw [List.range_succ, List.foldlM_append, hfold, Option.bind_eq_bind, Option.bind_some,
        List.foldlM_cons, hround]
      rfl
    · rw [hcells', List.take_add_one, List.getElem?_zipWith, List.getElem?_eq_getElem hpiece,
        List.getElem?_eq_getElem hitems]
      rfl

/-- The loop replaces the piece that a slice covers by the combination with a slice of another
array, and nothing else. -/
theorem exists_zipInto (f : α → α → α) (dst src : SliceRef)
    (hdst : m[dst.array]? = some (front ++ piece ++ back)) (hstart : dst.start = front.length)
    (hlength : dst.length = piece.length) (hsrc : (src.read m).length = src.length)
    (hsame : src.length = piece.length) (hne : dst.array ≠ src.array) :
    ∃ m', zipInto f dst src m = some m' ∧
      m'[dst.array]? = some (front ++ List.zipWith f piece (src.read m) ++ back) ∧
      ∀ other, dst.array ≠ other → m'[other]? = m[other]? := by
  obtain ⟨m', hfold, hcells, hframe⟩ :=
    exists_zipRounds f hdst hstart hlength hsrc hsame hne (le_refl src.length)
  refine ⟨m', hfold, ?_, hframe⟩
  rw [hcells, List.take_of_length_le (by rw [List.length_zipWith]; omega),
    List.drop_of_length_le (by omega), List.append_nil]

end SliceRef

end NevelCore.Foundations
