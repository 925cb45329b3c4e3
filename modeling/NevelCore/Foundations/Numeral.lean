import Mathlib.Algebra.Ring.Nat
import Mathlib.Data.List.Induction
import Mathlib.Data.Nat.Basic

/-!
# Numerals with a fixed number of digits

A numeral is a list of digits, the most significant first. `ofNumeral` is its value and `toNumeral`
writes a number with so many digits. They are inverse to each other on digits below the base
(`ofNumeral_toNumeral`, `toNumeral_ofNumeral`), so that a numeral is determined by its length and
its value (`eq_of_ofNumeral_eq`).
-/

set_option autoImplicit false
set_option relaxedAutoImplicit false

namespace NevelCore.Foundations

/-- The value of a numeral. -/
def ofNumeral (base : ℕ) (digits : List ℕ) : ℕ := digits.foldl (fun value d ↦ base * value + d) 0

/-- The last `count` digits of a number. -/
def toNumeral (base : ℕ) : ℕ → ℕ → List ℕ
  | 0, _ => []
  | count + 1, value => toNumeral base count (value / base) ++ [value % base]

@[simp] theorem ofNumeral_nil (base : ℕ) : ofNumeral base [] = 0 := rfl

@[simp] theorem ofNumeral_append_singleton (base : ℕ) (digits : List ℕ) (d : ℕ) :
    ofNumeral base (digits ++ [d]) = base * ofNumeral base digits + d := by
  rw [ofNumeral, List.foldl_append]
  rfl

@[simp] theorem length_toNumeral (base count value : ℕ) :
    (toNumeral base count value).length = count := by
  induction count generalizing value with
  | zero => rfl
  | succ count ih => rw [toNumeral, List.length_append, ih, List.length_singleton]

/-- The value of the last `count` digits of a number is the number modulo a power. -/
theorem ofNumeral_toNumeral (base count value : ℕ) :
    ofNumeral base (toNumeral base count value) = value % base ^ count := by
  induction count generalizing value with
  | zero => rw [toNumeral, ofNumeral_nil, Nat.pow_zero, Nat.mod_one]
  | succ count ih =>
    rw [toNumeral, ofNumeral_append_singleton, ih, Nat.pow_succ', Nat.mod_mul, Nat.add_comm]

/-- A numeral is the one that its value is written with. -/
theorem toNumeral_ofNumeral {base : ℕ} {digits : List ℕ} (h : ∀ d ∈ digits, d < base) :
    toNumeral base digits.length (ofNumeral base digits) = digits := by
  induction digits using List.reverseRecOn with
  | nil => rfl
  | append_singleton digits d ih =>
    have hd : d < base := h d (List.mem_append_right _ (List.mem_singleton_self d))
    have hdigits := ih fun d' hd' ↦ h d' (List.mem_append_left _ hd')
    rw [List.length_append, List.length_singleton, toNumeral, ofNumeral_append_singleton,
      Nat.mul_add_div (by omega), Nat.div_eq_of_lt hd, Nat.add_zero, hdigits, Nat.mul_add_mod,
      Nat.mod_eq_of_lt hd]

theorem ofNumeral_lt {base : ℕ} {digits : List ℕ} (h : ∀ d ∈ digits, d < base) :
    ofNumeral base digits < base ^ digits.length := by
  rcases Nat.eq_zero_or_pos base with rfl | hpos
  · cases digits with
    | nil => exact Nat.one_pos
    | cons d digits => exact absurd (h d List.mem_cons_self) (Nat.not_lt_zero d)
  · have hvalue := ofNumeral_toNumeral base digits.length (ofNumeral base digits)
    rw [toNumeral_ofNumeral h] at hvalue
    rw [hvalue]
    exact Nat.mod_lt _ (Nat.pow_pos hpos)

/-- A numeral is determined by its length and its value. -/
theorem eq_of_ofNumeral_eq {base : ℕ} {digits digits' : List ℕ} (h : ∀ d ∈ digits, d < base)
    (h' : ∀ d ∈ digits', d < base) (hlength : digits.length = digits'.length)
    (hvalue : ofNumeral base digits = ofNumeral base digits') : digits = digits' := by
  rw [← toNumeral_ofNumeral h, ← toNumeral_ofNumeral h', hlength, hvalue]

end NevelCore.Foundations
