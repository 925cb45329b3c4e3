import Mathlib.Data.List.MinMax
import NevelCore.Foundations.SlashPath

/-!
# The request multiplexer

`ServeMux` of the standard library's package `net/http`, for patterns that are plain paths, with a
slash at the end or without one. A pattern with a slash at the end takes all paths below it, and of
the patterns that take a path the one with the most segments is chosen (`find`). A path that is not
clean, or that becomes one of the patterns by a slash at its end, is redirected (`route`).

Segments are compared after the percent signs in them have been resolved, while what is handed on is
the whole path with its percent signs resolved. The two agree: what a path is routed to starts, when
it is resolved, with the text of the pattern (`text_prefix_of_route`).
-/

set_option autoImplicit false
set_option relaxedAutoImplicit false

namespace NevelCore.Foundations.HttpMux

open SlashPath

/-! ### Percent signs -/

/-- The value of a hexadecimal digit. -/
def hexValue (c : UInt8) : Option UInt8 :=
  if 0x30 ≤ c ∧ c ≤ 0x39 then some (c - 0x30)
  else if 0x61 ≤ c ∧ c ≤ 0x66 then some (c - 0x61 + 10)
  else if 0x41 ≤ c ∧ c ≤ 0x46 then some (c - 0x41 + 10)
  else none

/-- `PathUnescape` of the package `net/url`. -/
def unescape : List UInt8 → Option (List UInt8)
  | [] => some []
  | 0x25 :: a :: b :: rest => do
    let high ← hexValue a
    let low ← hexValue b
    let bytes ← unescape rest
    pure ((high <<< 4 ||| low) :: bytes)
  | c :: rest => if c = 0x25 then none else (unescape rest).map (c :: ·)

theorem hexValue_slash : hexValue slash = none := by decide

theorem unescape_cons {c : UInt8} (hc : c ≠ 0x25) (rest : List UInt8) :
    unescape (c :: rest) = (unescape rest).map (c :: ·) := by
  rw [unescape, if_neg hc]
  rintro a b rest' rfl
  exact absurd rfl hc

/-- What stands before and after a slash is resolved by itself. -/
theorem unescape_append (front back : List UInt8) :
    unescape (front ++ slash :: back) =
      (unescape front).bind fun front ↦ (unescape back).map fun back ↦ front ++ slash :: back := by
  have hslash (rest : List UInt8) : unescape (slash :: rest) = (unescape rest).map (slash :: ·) :=
    unescape_cons (by decide) rest
  fun_induction unescape front with
  | case1 => simp [hslash]
  | case2 a b rest ih =>
    simp only [List.cons_append, unescape, ih]
    cases hexValue a <;> cases hexValue b <;> cases unescape rest <;> cases unescape back <;> rfl
  | case3 rest hrest =>
    -- A percent sign without two digits is not saved by the slash, which is no digit.
    match rest with
    | [] => cases back <;> simp [unescape, hexValue_slash]
    | [a] => simp [unescape, hexValue_slash]
    | a :: b :: rest => exact (hrest a b rest rfl rfl).elim
  | case4 c rest hc hne ih =>
    rw [List.cons_append, unescape_cons hne, ih]
    cases unescape rest <;> cases unescape back <;> rfl

/-! ### Segments -/

/-- The segments of a path, which starts with a slash. Percent signs that cannot be resolved are
kept. -/
def segments (path : List UInt8) : List (List UInt8) :=
  ((path.drop 1).splitOn slash).map fun segment ↦ (unescape segment).getD segment

/-- Segments written as a path. -/
def written (segments : List (List UInt8)) : List UInt8 := slash :: [slash].intercalate segments

theorem unescape_intercalate {pieces : List (List UInt8)} {text : List UInt8} (hne : pieces ≠ [])
    (h : unescape ([slash].intercalate pieces) = some text) :
    [slash].intercalate (pieces.map fun piece ↦ (unescape piece).getD piece) = text := by
  induction pieces generalizing text with
  | nil => exact absurd rfl hne
  | cons piece pieces ih =>
    cases pieces with
    | nil =>
      rw [List.intercalate_singleton] at h
      simp [h]
    | cons next pieces =>
      rw [List.intercalate_cons_cons, List.append_assoc, List.singleton_append,
        unescape_append] at h
      obtain ⟨front, hfront, back, hback, rfl⟩ : ∃ front, unescape piece = some front ∧
          ∃ back, unescape ([slash].intercalate (next :: pieces)) = some back ∧
            front ++ slash :: back = text := by
        simpa only [Option.bind_eq_some_iff, Option.map_eq_some_iff] using h
      have hnext := ih (by simp) hback
      simp only [List.map_cons] at hnext ⊢
      rw [List.intercalate_cons_cons, hnext, hfront]
      simp

/-- The resolved path is its resolved segments with slashes between them. -/
theorem written_segments {path text : List UInt8} (hpath : path.head? = some slash)
    (h : unescape path = some text) : written (segments path) = text := by
  obtain ⟨rest, rfl⟩ : ∃ rest, path = slash :: rest := by
    cases path with
    | nil => simp at hpath
    | cons c rest => exact ⟨rest, by simpa using hpath⟩
  rw [unescape_cons (by decide), Option.map_eq_some_iff] at h
  obtain ⟨text, htext, rfl⟩ := h
  have hrest : unescape ([slash].intercalate (rest.splitOn slash)) = some text := by
    rwa [List.intercalate_splitOn]
  have hne : rest.splitOn slash ≠ [] := List.splitOnP_ne_nil _ _
  rw [written, segments, List.drop_one, List.tail_cons, unescape_intercalate hne hrest]

/-! ### Patterns -/

/-- A pattern: its segments, and whether a slash follows them. -/
structure Pattern where
  literals : List (List UInt8)
  subtree : Bool
  deriving DecidableEq

namespace Pattern

/-- Reads a pattern, which starts with a slash. -/
def parse (text : List UInt8) : Pattern :=
  let pieces := (text.drop 1).splitOn slash
  if pieces.getLast? = some [] then ⟨pieces.dropLast, true⟩ else ⟨pieces, false⟩

/-- The pattern as it is written. -/
def text (pattern : Pattern) : List UInt8 :=
  written (pattern.literals ++ if pattern.subtree then [[]] else [])

/-- Whether the pattern takes a path with these segments. -/
def Accepts (pattern : Pattern) (segments : List (List UInt8)) : Prop :=
  if pattern.subtree then
    pattern.literals <+: segments ∧ pattern.literals.length < segments.length
  else pattern.literals = segments

instance (pattern : Pattern) (segments : List (List UInt8)) :
    Decidable (pattern.Accepts segments) := by
  unfold Accepts; infer_instance

/-- How specific a pattern is: a path that goes on takes the pattern that follows it furthest. -/
def specificity (pattern : Pattern) : ℕ :=
  2 * pattern.literals.length + if pattern.subtree then 0 else 1

/-- `exactMatch`: nothing of the path is left over after the pattern. -/
def Exact (pattern : Pattern) (path : List UInt8) : Prop :=
  pattern.subtree → path.getLast? = some slash ∧ pattern.literals.length + 1 = path.count slash

instance (pattern : Pattern) (path : List UInt8) : Decidable (pattern.Exact path) := by
  unfold Exact; infer_instance

theorem text_parse (rest : List UInt8) : (parse (slash :: rest)).text = slash :: rest := by
  have hwritten : written (rest.splitOn slash) = slash :: rest :=
    congrArg (slash :: ·) (List.intercalate_splitOn slash)
  simp only [parse, List.drop_one, List.tail_cons]
  split_ifs with hlast
  · exact (congrArg written (List.dropLast_append_getLast? [] hlast)).trans hwritten
  · exact (congrArg written (List.append_nil _)).trans hwritten

end Pattern

theorem intercalate_prefix (front : List (List UInt8)) {back : List (List UInt8)}
    (hback : back ≠ []) :
    [slash].intercalate (front ++ [[]]) <+: [slash].intercalate (front ++ back) := by
  induction front with
  | nil => exact List.nil_prefix
  | cons piece front ih =>
    obtain ⟨next, rest, hrest⟩ := List.exists_cons_of_ne_nil
      (List.append_ne_nil_of_right_ne_nil front hback)
    obtain ⟨next', rest', hrest'⟩ := List.exists_cons_of_ne_nil
      (List.append_ne_nil_of_right_ne_nil front (List.cons_ne_nil [] []))
    rw [hrest, hrest'] at ih
    rw [List.cons_append, List.cons_append, hrest, hrest', List.intercalate_cons_cons,
      List.intercalate_cons_cons]
    exact (List.prefix_append_right_inj _).mpr ih

theorem Pattern.Accepts.isPrefix_text {pattern : Pattern} {segments : List (List UInt8)}
    (h : pattern.Accepts segments) : pattern.text <+: written segments := by
  unfold Pattern.Accepts at h
  unfold Pattern.text
  split_ifs at h ⊢ with hsubtree
  · obtain ⟨⟨rest, rfl⟩, hlength⟩ := h
    have hrest : rest ≠ [] := by
      rintro rfl
      simp at hlength
    exact List.cons_prefix_cons.mpr ⟨rfl, intercalate_prefix _ hrest⟩
  · exact ⟨[], by rw [h, List.append_nil, List.append_nil]⟩

/-! ### Routing -/

variable {ε : Type*}

/-- What becomes of a request: a handler, a redirection to another path, or an error. -/
inductive Routed (ε : Type*) where
  | found (handler : ε)
  | redirect (path : List UInt8)
  | notFound
  | badRequest
  deriving DecidableEq

/-- The most specific pattern that takes the path. -/
def find (routes : List (Pattern × ε)) (path : List UInt8) : Option (Pattern × ε) :=
  if path.head? = some slash then
    (routes.filter (·.1.Accepts (segments path))).argmax (·.1.specificity)
  else none

/-- `cleanPath`. -/
def cleanPath (path : List UInt8) : List UInt8 :=
  if path = [] then [slash]
  else
    let path := if path.head? = some slash then path else slash :: path
    let cleaned := clean path
    if path.getLast? = some slash ∧ cleaned ≠ [slash] then cleaned ++ [slash] else cleaned

/-- `matchOrRedirect`: the redirection is to the path with a slash at its end. -/
def matchOrRedirect (routes : List (Pattern × ε)) (path urlPath : List UInt8) : Routed ε :=
  let found := find routes path
  let exactly (route : Option (Pattern × ε)) (path : List UInt8) : Bool :=
    route.any fun route ↦ decide (route.1.Exact path)
  if ¬ exactly found path ∧ path.getLast? ≠ some slash ∧
      exactly (find routes (path ++ [slash])) (path ++ [slash]) then
    .redirect (cleanPath urlPath ++ [slash])
  else
    match found with
    | some route => .found route.2
    | none => .notFound

/-- `ServeHTTP` up to the call of the handler, with `findHandler`. A request for all of the server
has an asterisk for a path. The path of a `CONNECT` request is not cleaned. -/
def route (routes : List (Pattern × ε)) (connect : Bool) (escapedPath urlPath : List UInt8) :
    Routed ε :=
  if escapedPath = [0x2a] then .badRequest
  else if connect then matchOrRedirect routes escapedPath urlPath
  else
    match matchOrRedirect routes (cleanPath escapedPath) urlPath with
    | .redirect path => .redirect path
    | routed =>
      if cleanPath escapedPath ≠ escapedPath then .redirect (cleanPath escapedPath) else routed

theorem find_of_matchOrRedirect {routes : List (Pattern × ε)} {path urlPath : List UInt8}
    {handler : ε} (h : matchOrRedirect routes path urlPath = .found handler) :
    ∃ pattern, find routes path = some (pattern, handler) := by
  unfold matchOrRedirect at h
  simp only at h
  split_ifs at h
  cases hfind : find routes path with
  | none => simp [hfind] at h
  | some route =>
    simp only [hfind, Routed.found.injEq] at h
    exact ⟨route.1, by rw [← h]⟩

theorem find_of_route {routes : List (Pattern × ε)} {connect : Bool}
    {escapedPath urlPath : List UInt8} {handler : ε}
    (h : route routes connect escapedPath urlPath = .found handler) :
    ∃ pattern, find routes escapedPath = some (pattern, handler) := by
  unfold route at h
  split_ifs at h with hall hconnect hclean
  · exact find_of_matchOrRedirect h
  · split at h <;> cases h
  · rw [not_not] at hclean
    rw [hclean] at h
    split at h
    · cases h
    · exact find_of_matchOrRedirect h

/-- A handler sees a path that starts with the text of its pattern. -/
theorem text_prefix_of_route {routes : List (Pattern × ε)} {connect : Bool}
    {escapedPath urlPath : List UInt8} {handler : ε}
    (hpath : unescape escapedPath = some urlPath)
    (h : route routes connect escapedPath urlPath = .found handler) :
    ∃ pattern, (pattern, handler) ∈ routes ∧ pattern.text <+: urlPath := by
  obtain ⟨pattern, hfind⟩ := find_of_route h
  unfold find at hfind
  split_ifs at hfind with hslash
  obtain ⟨hmem, haccepts⟩ := List.mem_filter.mp (List.argmax_mem hfind)
  refine ⟨pattern, hmem, ?_⟩
  rw [← written_segments hslash hpath]
  exact (of_decide_eq_true haccepts).isPrefix_text

end NevelCore.Foundations.HttpMux
