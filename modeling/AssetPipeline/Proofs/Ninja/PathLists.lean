import AssetPipeline.Proofs.Ninja.RoundTrip
import Mathlib.Data.List.TakeWhile

/-! Lists of paths as the executor reads them. A path is a run of characters up to a space, a colon, a
bar or the end of the line, so no path is empty and none holds a bar; a bar separates the explicit paths
from the implicit ones. Lists of paths are read as they were written exactly if their paths can be read
at all. -/

namespace AssetPipeline.Ninja

/-- A character that cannot be escaped and separates explicit paths from implicit ones. -/
def bar : Glyph := .char '|'

/-- The paths between separators. Of two spaces in a row the second separates nothing. -/
def runs? (glyphs : List Glyph) : Option (List String) :=
  ((glyphs.splitOn .space).filter (· ≠ [])).mapM fun path =>
    (path.mapM Glyph.char?).map String.ofList

/-- Explicit paths, and implicit ones after a bar. -/
def side? (glyphs : List Glyph) : Option (List String × List String) := do
  let implicit := (glyphs.dropWhile (· ≠ bar)).drop 1
  guard (bar ∉ implicit)
  return (← runs? (glyphs.takeWhile (· ≠ bar)), ← runs? implicit)

/-- What the executor reads on a `build` line. -/
structure BuildLine where
  outputs : List String
  implicitOutputs : List String := []
  rule : String
  inputs : List String
  implicitInputs : List String := []
  deriving DecidableEq

/-- A `build` line with outputs up to the first colon, then the rule, then the inputs. -/
def BuildLine.ofText? (line : String) : Option BuildLine := do
  let glyphs ← scan (← line.toList.dropPrefix? "build ".toList)
  match glyphs.dropWhile (· ≠ .colon) with
  | .colon :: rest =>
    let (outputs, implicitOutputs) ← side? (glyphs.takeWhile (· ≠ .colon))
    match ← side? rest with
    | (rule :: inputs, implicitInputs) =>
      return { outputs, implicitOutputs, rule, inputs, implicitInputs }
    | _ => none
  | _ => none

/-- The paths of a `default` line, where all are explicit. -/
def defaultPaths? (line : String) : Option (List String) := do
  let glyphs ← scan (← line.toList.dropPrefix? "default ".toList)
  guard (bar ∉ glyphs)
  runs? glyphs

/-- A path that the executor can read. -/
def IsReadable (path : String) : Prop :=
  path ≠ "" ∧ '|' ∉ path.toList

instance (path : String) : Decidable (IsReadable path) :=
  inferInstanceAs (Decidable (_ ∧ _))

/-! ### What is read -/

theorem mapM_char?_eq_some {glyphs : List Glyph} {chars : List Char}
    (h : glyphs.mapM Glyph.char? = some chars) : glyphs = chars.map .char := by
  induction glyphs generalizing chars with
  | nil =>
      rw [List.mapM_nil] at h
      cases h
      rfl
  | cons glyph glyphs ih =>
      rw [List.mapM_cons, Option.bind_eq_bind, Option.bind_eq_some_iff] at h
      obtain ⟨c, hc, h⟩ := h
      rw [Option.bind_eq_bind, Option.bind_eq_some_iff] at h
      obtain ⟨rest, hrest, h⟩ := h
      cases h
      cases glyph with
      | char d =>
          cases hc
          rw [List.map_cons, ih hrest]
      | space => cases hc
      | colon => cases hc

theorem exists_of_mapM_eq_some {α β : Type} {f : α → Option β} {items : List α} {results : List β}
    (h : items.mapM f = some results) {y : β} (hy : y ∈ results) : ∃ x ∈ items, f x = some y := by
  induction items generalizing results with
  | nil =>
      rw [List.mapM_nil] at h
      cases h
      cases hy
  | cons x items ih =>
      rw [List.mapM_cons, Option.bind_eq_bind, Option.bind_eq_some_iff] at h
      obtain ⟨first, hfirst, h⟩ := h
      rw [Option.bind_eq_bind, Option.bind_eq_some_iff] at h
      obtain ⟨rest, hrest, h⟩ := h
      cases h
      rcases List.mem_cons.mp hy with rfl | hy
      · exact ⟨x, List.mem_cons_self, hfirst⟩
      · obtain ⟨x', hx', hy⟩ := ih hrest hy
        exact ⟨x', List.mem_cons_of_mem _ hx', hy⟩

/-- Every path that is read is a run of characters of the line. -/
theorem of_mem_runs? {glyphs : List Glyph} {paths : List String} (h : runs? glyphs = some paths)
    {path : String} (hpath : path ∈ paths) : path ≠ "" ∧ ∀ c ∈ path.toList, .char c ∈ glyphs := by
  obtain ⟨piece, hpiece, hpath⟩ := exists_of_mapM_eq_some h hpath
  obtain ⟨hpiece, hne⟩ := List.mem_filter.mp hpiece
  obtain ⟨chars, hchars, rfl⟩ := Option.map_eq_some_iff.mp hpath
  have heq := mapM_char?_eq_some hchars
  refine ⟨?_, fun c hc => ?_⟩
  · intro hempty
    have hnil : chars = [] := by simpa using hempty
    rw [heq, hnil] at hne
    simp at hne
  · rw [String.toList_ofList] at hc
    exact (infix_of_mem_splitOn hpiece).subset (heq ▸ List.mem_map_of_mem hc)

theorem runs?_space_cons (glyphs : List Glyph) : runs? (.space :: glyphs) = runs? glyphs := by
  have hsplit : (Glyph.space :: glyphs).splitOn .space = [] :: glyphs.splitOn .space := by
    rw [List.splitOn_eq_splitOnP, List.splitOnP_cons_eq_if_modifyHead]
    rfl
  rw [runs?, runs?, hsplit, List.filter_cons_of_neg (by simp)]

/-- The paths of a list are read as they are if none is empty. -/
theorem runs?_pathGlyphs {paths : List String} (h : ∀ path ∈ paths, path ≠ "") :
    runs? (pathGlyphs paths) = some paths := by
  by_cases hne : paths = []
  · subst hne
    rfl
  · have hsplit : (pathGlyphs paths).splitOn .space = paths.map fun path => path.toList.map .char := by
      rw [pathGlyphs]
      apply List.splitOn_intercalate
      · simp
      · simpa using hne
    have hfilter : ((pathGlyphs paths).splitOn .space).filter (· ≠ []) =
        (pathGlyphs paths).splitOn .space := by
      rw [List.filter_eq_self, hsplit, List.forall_mem_map]
      exact fun path hpath => by simpa using h path hpath
    rw [runs?, hfilter]
    exact paths?_pathGlyphs hne

theorem bar_mem_pathGlyphs_iff {paths : List String} :
    bar ∈ pathGlyphs paths ↔ ∃ path ∈ paths, '|' ∈ path.toList := by
  induction paths with
  | nil => simp [pathGlyphs]
  | cons path paths ih =>
      cases paths with
      | nil => simp [pathGlyphs, bar]
      | cons next paths =>
          have hcons : pathGlyphs (path :: next :: paths) =
              path.toList.map .char ++ ([.space] ++ pathGlyphs (next :: paths)) := by
            simp [pathGlyphs]
          rw [hcons, List.mem_append, List.mem_append, ih, List.exists_mem_cons_iff]
          simp [bar]

theorem side?_space_cons (glyphs : List Glyph) : side? (.space :: glyphs) = side? glyphs := by
  have hdrop : (Glyph.space :: glyphs).dropWhile (· ≠ bar) = glyphs.dropWhile (· ≠ bar) :=
    List.dropWhile_cons_of_pos (by decide)
  have htake : (Glyph.space :: glyphs).takeWhile (· ≠ bar) = .space :: glyphs.takeWhile (· ≠ bar) :=
    List.takeWhile_cons_of_pos (by decide)
  rw [side?, side?, hdrop, htake, runs?_space_cons]

/-- A list of paths is read as it was written, all of it explicit, exactly if the executor can read
each of the paths. -/
theorem side?_pathGlyphs_iff {paths : List String} :
    side? (pathGlyphs paths) = some (paths, []) ↔ ∀ path ∈ paths, IsReadable path := by
  constructor
  · intro h path hpath
    obtain ⟨-, -, h⟩ := Option.bind_eq_some_iff.mp h
    obtain ⟨explicit, hexplicit, h⟩ := Option.bind_eq_some_iff.mp h
    obtain ⟨implicit, -, h⟩ := Option.bind_eq_some_iff.mp h
    cases h
    obtain ⟨hne, hchars⟩ := of_mem_runs? hexplicit hpath
    refine ⟨hne, fun hbar => ?_⟩
    have htake := List.mem_takeWhile_imp (hchars '|' hbar)
    exact of_decide_eq_true htake rfl
  · intro h
    have hbar : ∀ glyph ∈ pathGlyphs paths, decide (glyph ≠ bar) = true := by
      intro glyph hglyph
      refine decide_eq_true fun heq => ?_
      obtain ⟨path, hpath, hmem⟩ := bar_mem_pathGlyphs_iff.mp (heq ▸ hglyph)
      exact (h path hpath).2 hmem
    have htake : (pathGlyphs paths).takeWhile (· ≠ bar) = pathGlyphs paths :=
      List.takeWhile_eq_self_iff.mpr hbar
    have hdrop : (pathGlyphs paths).dropWhile (· ≠ bar) = [] := List.dropWhile_eq_nil_iff.mpr hbar
    rw [side?, hdrop, htake, runs?_pathGlyphs fun path hpath => (h path hpath).1]
    rfl

/-! ### Lines -/

/-- The executor reads the outputs of a `build` line on one side, and its rule before the inputs on the
other. -/
theorem BuildLine.ofText?_eq {e : Edge} (hrule : isValidName e.rule = true) :
    BuildLine.ofText? (buildLine e) = (do
      let (outputs, implicitOutputs) ← side? (pathGlyphs e.outputs)
      match ← side? (pathGlyphs (e.rule :: e.inputs)) with
      | (rule :: inputs, implicitInputs) =>
        return { outputs, implicitOutputs, rule, inputs, implicitInputs }
      | _ => none) := by
  have hplain : ∀ glyph ∈ pathGlyphs e.outputs, decide (glyph ≠ .colon) = true := by
    intro glyph hglyph
    exact decide_eq_true fun heq => colon_notMem_pathGlyphs e.outputs (heq ▸ hglyph)
  simp only [BuildLine.ofText?, toList_buildLine hrule, Line.dropPrefix?_append, scan_buildPaths,
    Option.bind_eq_bind, Option.bind_some, List.dropWhile_append_of_pos hplain,
    List.takeWhile_append_of_pos hplain, List.dropWhile_cons_of_neg, List.takeWhile_cons_of_neg,
    List.append_nil, not_true_eq_false, decide_false, ne_eq, Bool.false_eq_true, not_false_eq_true,
    side?_space_cons]

/-- A `build` line gives its edge back exactly if the executor can read all its paths. -/
theorem BuildLine.ofText?_buildLine_iff {e : Edge} (hrule : isValidName e.rule = true) :
    BuildLine.ofText? (buildLine e) =
        some { outputs := e.outputs, rule := e.rule, inputs := e.inputs } ↔
      ∀ path ∈ e.outputs ++ e.inputs, IsReadable path := by
  have hruleReadable : IsReadable e.rule := by
    refine ⟨fun hempty => ?_, notMem_of_isValidName hrule (by decide)⟩
    simp [isValidName, hempty] at hrule
  have hinputs : (∀ path ∈ e.inputs, IsReadable path) ↔
      side? (pathGlyphs (e.rule :: e.inputs)) = some (e.rule :: e.inputs, []) := by
    rw [side?_pathGlyphs_iff, List.forall_mem_cons]
    exact (and_iff_right hruleReadable).symm
  rw [List.forall_mem_append, hinputs, ← side?_pathGlyphs_iff, BuildLine.ofText?_eq hrule]
  constructor
  · intro h
    obtain ⟨⟨outputs, implicitOutputs⟩, houtputs, h⟩ := Option.bind_eq_some_iff.mp h
    obtain ⟨⟨words, implicitInputs⟩, hwords, h⟩ := Option.bind_eq_some_iff.mp h
    cases words with
    | nil => cases h
    | cons rule inputs =>
        cases h
        exact ⟨houtputs, hwords⟩
  · rintro ⟨houtputs, hwords⟩
    rw [houtputs, hwords]
    rfl

/-- A `default` line gives its paths back exactly if the executor can read all of them. -/
theorem defaultPaths?_eq_some_iff {paths : List String} :
    defaultPaths? ("default " ++ joinPaths paths) = some paths ↔ ∀ path ∈ paths, IsReadable path := by
  rw [defaultPaths?, String.toList_append, Line.dropPrefix?_append, Option.bind_eq_bind,
    Option.bind_some, scan_joined, Option.bind_eq_bind, Option.bind_some]
  constructor
  · intro h path hpath
    obtain ⟨_, hbar, h⟩ := Option.bind_eq_some_iff.mp h
    have hbar : bar ∉ pathGlyphs paths := by
      intro hmem
      rw [guard, if_neg (not_not.mpr hmem)] at hbar
      cases hbar
    exact ⟨(of_mem_runs? h hpath).1, fun hmem => hbar (bar_mem_pathGlyphs_iff.mpr ⟨path, hpath, hmem⟩)⟩
  · intro h
    have hbar : bar ∉ pathGlyphs paths := by
      rw [bar_mem_pathGlyphs_iff]
      rintro ⟨path, hpath, hmem⟩
      exact (h path hpath).2 hmem
    rw [guard, if_pos hbar, runs?_pathGlyphs fun path hpath => (h path hpath).1]
    rfl

end AssetPipeline.Ninja
