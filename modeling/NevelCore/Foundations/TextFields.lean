import Mathlib.Data.List.ReduceOption
import Mathlib.Data.UInt

/-!
# Words of a text

`Join` with a space, `Fields` and `TrimSpace` of the package `strings`, on the bytes of a text.
`Fields` looks for the characters that count as white space in UTF-8. The first byte of such a form
is never in the middle of another character, so no decoding is needed to find them, and the same
holds for the last characters when `TrimSpace` goes backwards.

Words of visible ASCII characters are found again in their text (`fields_join`), in which there is
nothing to trim (`trimSpace_join`).
-/

set_option autoImplicit false
set_option relaxedAutoImplicit false

namespace NevelCore.Foundations.TextFields

/-- The characters for which `IsSpace` of the package `unicode` is true, in UTF-8. -/
def spaces : List (List UInt8) :=
  [[0x09], [0x0a], [0x0b], [0x0c], [0x0d], [0x20], [0xc2, 0x85], [0xc2, 0xa0], [0xe1, 0x9a, 0x80],
    [0xe2, 0x80, 0x80], [0xe2, 0x80, 0x81], [0xe2, 0x80, 0x82], [0xe2, 0x80, 0x83],
    [0xe2, 0x80, 0x84], [0xe2, 0x80, 0x85], [0xe2, 0x80, 0x86], [0xe2, 0x80, 0x87],
    [0xe2, 0x80, 0x88], [0xe2, 0x80, 0x89], [0xe2, 0x80, 0x8a], [0xe2, 0x80, 0xa8],
    [0xe2, 0x80, 0xa9], [0xe2, 0x80, 0xaf], [0xe2, 0x81, 0x9f], [0xe3, 0x80, 0x80]]

/-- The number of bytes of the form that a text starts with, zero if there is none. -/
def width (forms : List (List UInt8)) (s : List UInt8) : ℕ :=
  ((forms.find? (·.isPrefixOf s)).map List.length).getD 0

/-- A text with `none` for each white space. The number says how many bytes still belong to the last
one. -/
def marks : ℕ → List UInt8 → List (Option UInt8)
  | _, [] => []
  | skip + 1, _ :: s => marks skip s
  | 0, b :: s =>
    match width spaces (b :: s) with
    | 0 => some b :: marks 0 s
    | rest + 1 => none :: marks rest s

/-- `Fields` of the package `strings`. -/
def fields (s : List UInt8) : List (List UInt8) :=
  (((marks 0 s).splitOn none).map List.reduceOption).filter (· ≠ [])

/-- A text without the forms at its front. -/
def dropForms (forms : List (List UInt8)) : ℕ → List UInt8 → List UInt8
  | _, [] => []
  | skip + 1, _ :: s => dropForms forms skip s
  | 0, b :: s =>
    match width forms (b :: s) with
    | 0 => b :: s
    | rest + 1 => dropForms forms rest s

/-- `TrimSpace` of the package `strings`. -/
def trimSpace (s : List UInt8) : List UInt8 :=
  (dropForms (spaces.map List.reverse) 0 (dropForms spaces 0 s).reverse).reverse

/-- `Join` of the package `strings`, with a space between the words. -/
def join (words : List (List UInt8)) : List UInt8 := [0x20].intercalate words

/-! ### Visible characters -/

/-- A visible ASCII character. -/
def Visible (b : UInt8) : Prop := 0x20 < b ∧ b < 0x80

instance : DecidablePred Visible := fun _ ↦ instDecidableAnd

/-- A word of visible characters. -/
structure IsWord (word : List UInt8) : Prop where
  ne_nil : word ≠ []
  visible : ∀ b ∈ word, Visible b

instance (word : List UInt8) : Decidable (IsWord word) :=
  -- Over the bytes of the word, not over all bytes.
  letI := List.decidableBAll Visible word
  decidable_of_iff (word ≠ [] ∧ ∀ b ∈ word, Visible b) ⟨fun h ↦ ⟨h.1, h.2⟩, fun h ↦ ⟨h.1, h.2⟩⟩

theorem width_eq_zero {forms : List (List UInt8)} {b : UInt8} {s : List UInt8}
    (hforms : ∀ form ∈ forms, ∃ c ∈ form.head?, ¬ Visible c) (hb : Visible b) :
    width forms (b :: s) = 0 := by
  have hnone : forms.find? (·.isPrefixOf (b :: s)) = none := by
    refine List.find?_eq_none.mpr fun form hform hstarts ↦ ?_
    obtain ⟨c, hc, hspace⟩ := hforms form hform
    obtain ⟨rest, hrest⟩ := List.isPrefixOf_iff_prefix.mp hstarts
    obtain ⟨tail, rfl⟩ := List.head?_eq_some_iff.mp hc
    rw [List.cons_append, List.cons.injEq] at hrest
    exact hspace (hrest.1 ▸ hb)
  rw [width, hnone]
  rfl

theorem heads_spaces : ∀ form ∈ spaces, ∃ c ∈ form.head?, ¬ Visible c := by decide

theorem heads_reverse_spaces :
    ∀ form ∈ spaces.map List.reverse, ∃ c ∈ form.head?, ¬ Visible c := by decide

/-! ### The words of a text -/

theorem marks_append {word : List UInt8} (hword : ∀ b ∈ word, Visible b) (s : List UInt8) :
    marks 0 (word ++ s) = word.map some ++ marks 0 s := by
  induction word with
  | nil => rfl
  | cons b word ih =>
    obtain ⟨hb, hrest⟩ := List.forall_mem_cons.mp hword
    rw [List.cons_append, marks, width_eq_zero heads_spaces hb, ih hrest]
    rfl

theorem marks_space (s : List UInt8) : marks 0 (0x20 :: s) = none :: marks 0 s := rfl

theorem join_cons_cons (word next : List UInt8) (words : List (List UInt8)) :
    join (word :: next :: words) = word ++ 0x20 :: join (next :: words) := by
  rw [join, List.intercalate_cons_cons, List.append_assoc, List.singleton_append, join]

theorem marks_join {words : List (List UInt8)} (hwords : ∀ word ∈ words, IsWord word) :
    marks 0 (join words) = [none].intercalate (words.map (List.map some)) := by
  induction words with
  | nil => rfl
  | cons word words ih =>
    obtain ⟨hword, hrest⟩ := List.forall_mem_cons.mp hwords
    cases words with
    | nil => simpa [join, marks] using marks_append hword.visible []
    | cons next words =>
      rw [join_cons_cons, marks_append hword.visible, marks_space, ih hrest]
      simp only [List.map_cons, List.intercalate_cons_cons, List.append_assoc,
        List.singleton_append]

/-- `Fields` gives back the words of a text. -/
theorem fields_join {words : List (List UInt8)} (hwords : ∀ word ∈ words, IsWord word) :
    fields (join words) = words := by
  by_cases hnil : words = []
  · subst hnil
    rfl
  · have hsplit : (marks 0 (join words)).splitOn none = words.map (List.map some) := by
      rw [marks_join hwords]
      refine List.splitOn_intercalate none (fun l hl hmem ↦ ?_) (by simpa using hnil)
      obtain ⟨word, -, rfl⟩ := List.mem_map.mp hl
      simp at hmem
    have hreduce : (List.reduceOption ∘ List.map some : List UInt8 → List UInt8) = id := by
      funext word
      simp [List.reduceOption, List.filterMap_map]
    rw [fields, hsplit, List.map_map, hreduce, List.map_id, List.filter_eq_self]
    exact fun word hword ↦ decide_eq_true (hwords word hword).ne_nil

/-- No space is left in a word. -/
theorem space_notMem_marks (skip : ℕ) (s : List UInt8) : some 0x20 ∉ marks skip s := by
  fun_induction marks skip s with
  | case1 => exact List.not_mem_nil
  | case2 skip b s ih => exact ih
  | case3 b s hwidth ih =>
    rw [List.mem_cons, not_or]
    refine ⟨fun hb ↦ ?_, ih⟩
    rw [← Option.some.inj hb] at hwidth
    cases hwidth
  | case4 b s rest hwidth ih =>
    rw [List.mem_cons, not_or]
    exact ⟨nofun, ih⟩

theorem ne_nil_of_mem_fields {s word : List UInt8} (h : word ∈ fields s) : word ≠ [] :=
  of_decide_eq_true (List.mem_filter.mp h).2

theorem mem_intercalate {α : Type*} {sep l : List α} {lists : List (List α)} {a : α}
    (hl : l ∈ lists) (ha : a ∈ l) : a ∈ sep.intercalate lists := by
  induction lists with
  | nil => cases hl
  | cons first lists ih =>
    cases lists with
    | nil =>
      rw [List.intercalate_singleton]
      exact List.mem_singleton.mp hl ▸ ha
    | cons next lists =>
      rw [List.intercalate_cons_cons, List.mem_append, List.mem_append]
      rcases List.mem_cons.mp hl with rfl | hl
      · exact .inl (.inl ha)
      · exact .inr (ih hl)

theorem space_notMem_of_mem_fields {s word : List UInt8} (h : word ∈ fields s) : 0x20 ∉ word := by
  obtain ⟨part, hpart, rfl⟩ := List.mem_map.mp (List.mem_filter.mp h).1
  intro hspace
  have hmem : some 0x20 ∈ [none].intercalate ((marks 0 s).splitOn none) :=
    mem_intercalate hpart (List.reduceOption_mem_iff.mp hspace)
  rw [List.intercalate_splitOn] at hmem
  exact space_notMem_marks 0 s hmem

theorem mem_join {words : List (List UInt8)} {b : UInt8} (h : b ∈ join words) :
    b = 0x20 ∨ ∃ word ∈ words, b ∈ word := by
  induction words with
  | nil => cases h
  | cons word words ih =>
    cases words with
    | nil =>
      rw [join, List.intercalate_singleton] at h
      exact .inr ⟨word, List.mem_singleton_self word, h⟩
    | cons next words =>
      rw [join_cons_cons, List.mem_append, List.mem_cons] at h
      rcases h with h | h | h
      · exact .inr ⟨word, List.mem_cons_self, h⟩
      · exact .inl h
      · exact (ih h).imp_right fun ⟨other, hother, hb⟩ ↦ ⟨other, List.mem_cons_of_mem _ hother, hb⟩

/-! ### The ends of a text -/

theorem dropForms_of_head {forms : List (List UInt8)} {s : List UInt8}
    (hforms : ∀ form ∈ forms, ∃ c ∈ form.head?, ¬ Visible c) (hs : ∀ b ∈ s.head?, Visible b) :
    dropForms forms 0 s = s := by
  cases s with
  | nil => rfl
  | cons b s => rw [dropForms, width_eq_zero hforms (hs b rfl)]

theorem head_join {words : List (List UInt8)} (hwords : ∀ word ∈ words, IsWord word) :
    ∀ b ∈ (join words).head?, Visible b := by
  cases words with
  | nil => nofun
  | cons word words =>
    have hword := hwords word List.mem_cons_self
    obtain ⟨c, tail, rfl⟩ := List.exists_cons_of_ne_nil hword.ne_nil
    intro b hb
    cases words <;> simp [join, List.intercalate_cons_cons] at hb <;>
      exact hword.visible b (hb ▸ List.mem_cons_self)

theorem join_ne_nil {word : List UInt8} (words : List (List UInt8)) (hword : word ≠ []) :
    join (word :: words) ≠ [] := by
  cases words with
  | nil => simpa [join] using hword
  | cons next words => simp [join_cons_cons]

theorem last_join {words : List (List UInt8)} (hwords : ∀ word ∈ words, IsWord word) :
    ∀ b ∈ (join words).getLast?, Visible b := by
  induction words with
  | nil => nofun
  | cons word words ih =>
    obtain ⟨hword, hrest⟩ := List.forall_mem_cons.mp hwords
    cases words with
    | nil =>
      intro b hb
      rw [join, List.intercalate_singleton] at hb
      exact hword.visible b (List.mem_of_getLast? hb)
    | cons next words =>
      have hne := join_ne_nil words (hrest next List.mem_cons_self).ne_nil
      rw [join_cons_cons, List.append_cons, List.getLast?_append_of_ne_nil _ hne]
      exact ih hrest

/-- There is nothing to trim at the ends of a text of words. -/
theorem trimSpace_join {words : List (List UInt8)} (hwords : ∀ word ∈ words, IsWord word) :
    trimSpace (join words) = join words := by
  have hlast : ∀ b ∈ (join words).reverse.head?, Visible b := by
    rw [List.head?_reverse]
    exact last_join hwords
  rw [trimSpace, dropForms_of_head heads_spaces (head_join hwords),
    dropForms_of_head heads_reverse_spaces hlast, List.reverse_reverse]

end NevelCore.Foundations.TextFields
