import Mathlib.Data.List.Basic
import Mathlib.Tactic.Basic

/-!
# Paths with slashes

The lexical path functions of the standard library's package `filepath`, for file systems with
slashes. A text is read component by component (`scan`), and the path so found is written with
single slashes (`render`); `clean` does both. What a directory is joined with is a component of its
own exactly if it is a file name (`IsName`): then the join is a fixed text of the directory followed
by the name (`join_eq_of_isName`), so different names give different paths.
-/

set_option autoImplicit false
set_option relaxedAutoImplicit false

namespace NevelCore.Foundations.SlashPath

/-- The separator `/`. -/
def slash : UInt8 := 0x2f

/-- The component for the directory itself. -/
def dot : List UInt8 := [0x2e]

/-- The component for the parent directory. -/
def dotDot : List UInt8 := [0x2e, 0x2e]

/-- A path: whether it starts at the root, and its components, the last one first. -/
structure Path where
  rooted : Bool
  components : List (List UInt8)

namespace Path

/-- Goes down to an entry of the directory. -/
def push (path : Path) (component : List UInt8) : Path :=
  { path with components := component :: path.components }

/-- Goes up to the parent. There is none above the root, and above a relative path the parent is a
component. -/
def pop (path : Path) : Path :=
  match path.components with
  | last :: rest => if last = dotDot then path.push dotDot else { path with components := rest }
  | [] => if path.rooted then path else path.push dotDot

/-- Follows one component of a text. -/
def follow (path : Path) (component : List UInt8) : Path :=
  if component = [] ∨ component = dot then path
  else if component = dotDot then path.pop
  else path.push component

/-- What the text of a path starts with, before the name of an entry. -/
def leading (path : Path) : List UInt8 :=
  (if path.rooted then [slash] else []) ++
    path.components.reverse.flatMap fun component ↦ component ++ [slash]

/-- The text of a path. -/
def render (path : Path) : List UInt8 :=
  match path.components with
  | [] => if path.rooted then [slash] else dot
  | last :: rest => leading { path with components := rest } ++ last

@[simp] theorem render_push (path : Path) (component : List UInt8) :
    (path.push component).render = path.leading ++ component := rfl

end Path

/-- Reads a text component by component. -/
def scan (text : List UInt8) : Path :=
  (text.splitOn slash).foldl Path.follow ⟨text.head? = some slash, []⟩

/-- `Clean`. -/
def clean (text : List UInt8) : List UInt8 := (scan text).render

/-- `Join` of two elements. An empty element is left out. -/
def join (first second : List UInt8) : List UInt8 :=
  if first ≠ [] then clean (first ++ slash :: second)
  else if second ≠ [] then clean second
  else []

/-- A component that names an entry of a directory. -/
structure IsName (name : List UInt8) : Prop where
  ne_nil : name ≠ []
  ne_dot : name ≠ dot
  ne_dotDot : name ≠ dotDot
  slash_notMem : slash ∉ name

variable {dir name name' : List UInt8}

theorem IsName.splitOn_eq (h : IsName name) : name.splitOn slash = [name] := by
  have hjoin : [slash].intercalate [name] = name := by simp
  rw [← hjoin, List.splitOn_intercalate slash (by simpa using h.slash_notMem) (by simp), hjoin]

theorem IsName.follow_eq (h : IsName name) (path : Path) : path.follow name = path.push name := by
  rw [Path.follow, if_neg (not_or.mpr ⟨h.ne_nil, h.ne_dot⟩), if_neg h.ne_dotDot]

theorem IsName.head_ne (h : IsName name) : name.head? ≠ some slash :=
  fun hhead ↦ h.slash_notMem (List.mem_of_mem_head? hhead)

/-- What follows a slash is read after what stands before it. -/
theorem scan_append (hdir : dir ≠ []) (rest : List UInt8) :
    scan (dir ++ slash :: rest) = (rest.splitOn slash).foldl Path.follow (scan dir) := by
  have hhead : (dir ++ slash :: rest).head? = dir.head? := by
    obtain ⟨byte, dir, rfl⟩ := List.exists_cons_of_ne_nil hdir
    rfl
  have hsplit : (dir ++ slash :: rest).splitOn slash = dir.splitOn slash ++ rest.splitOn slash :=
    List.splitOnP_append_cons dir rest (beq_self_eq_true slash)
  rw [scan, hhead, hsplit, List.foldl_append]
  rfl

theorem clean_eq_of_isName (h : IsName name) : clean name = name := by
  rw [clean, scan, h.splitOn_eq, List.foldl_cons, List.foldl_nil, h.follow_eq, Path.render_push]
  simp [Path.leading, h.head_ne]

theorem join_eq_of_isName (hdir : dir ≠ []) (h : IsName name) :
    join dir name = (scan dir).leading ++ name := by
  rw [join, if_pos hdir, clean, scan_append hdir, h.splitOn_eq, List.foldl_cons, List.foldl_nil,
    h.follow_eq, Path.render_push]

/-! ### A cleaned text is not empty -/

/-- No component of the path is empty. -/
def Path.Proper (path : Path) : Prop := [] ∉ path.components

theorem Path.Proper.push {path : Path} (h : path.Proper) {component : List UInt8}
    (hne : component ≠ []) : (path.push component).Proper := by
  intro hmem
  rcases List.mem_cons.mp hmem with heq | hmem
  · exact hne heq.symm
  · exact h hmem

theorem Path.Proper.pop {path : Path} (h : path.Proper) : path.pop.Proper := by
  obtain ⟨rooted, components⟩ := path
  cases components with
  | nil => cases rooted <;> simp [Path.pop, Path.push, Path.Proper, dotDot]
  | cons last rest =>
    change Path.Proper
      (if last = dotDot then Path.push ⟨rooted, last :: rest⟩ dotDot else ⟨rooted, rest⟩)
    split
    · exact h.push (by decide)
    · exact fun hmem ↦ h (List.mem_cons_of_mem last hmem)

theorem Path.Proper.follow {path : Path} (h : path.Proper) (component : List UInt8) :
    (path.follow component).Proper := by
  rw [Path.follow]
  split
  · exact h
  · next hskip =>
    split
    · exact h.pop
    · exact h.push fun hnil ↦ hskip (.inl hnil)

theorem proper_scan (text : List UInt8) : (scan text).Proper := by
  -- the components are followed one after the other, from a path without any
  have hfollow : ∀ (components : List (List UInt8)) (path : Path), path.Proper →
      (components.foldl Path.follow path).Proper := by
    intro components
    induction components with
    | nil => exact fun path h ↦ h
    | cons component components ih => exact fun path h ↦ ih _ (h.follow component)
  exact hfollow _ _ List.not_mem_nil

theorem Path.Proper.render_ne_nil {path : Path} (h : path.Proper) : path.render ≠ [] := by
  obtain ⟨rooted, components⟩ := path
  cases components with
  | nil => cases rooted <;> simp [Path.render, dot]
  | cons last rest =>
    intro hnil
    exact h (List.mem_cons.mpr (.inl (List.append_eq_nil_iff.mp hnil).2.symm))

theorem clean_ne_nil (text : List UInt8) : clean text ≠ [] := (proper_scan text).render_ne_nil

end NevelCore.Foundations.SlashPath
