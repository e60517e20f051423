import AssetPipeline.Proofs.Path.Segments
import Mathlib.Data.List.Count

/-! Directory, name and stem of a path. The directory is what stands before the last slash, the name what
stands behind it, and the stem is the name without its last extension; so paths with one directory and one
stem differ in their last extension only. -/

namespace AssetPipeline.Path

variable {path : String}

/-! ### The last slash -/

theorem parentDir_of_notMem (h : '/' ∉ path.toList) : parentDir path = "" := by
  rw [parentDir, Chars.cutLast?_eq_none_iff.mpr h]

theorem fileName_of_notMem (h : '/' ∉ path.toList) : fileName path = path := by
  rw [fileName, Chars.cutLast?_eq_none_iff.mpr h]

/-- A path with a slash is cut at the last one. -/
theorem toList_of_mem (h : '/' ∈ path.toList) :
    path.toList = (parentDir path).toList ++ '/' :: (fileName path).toList ∧
      '/' ∉ (fileName path).toList := by
  cases hcut : Chars.cutLast? '/' path.toList with
  | none => exact absurd h (Chars.cutLast?_eq_none_iff.mp hcut)
  | some cut =>
      obtain ⟨dir, name⟩ := cut
      have hdir : parentDir path = String.ofList dir := by rw [parentDir, hcut]
      have hname : fileName path = String.ofList name := by rw [fileName, hcut]
      rw [hdir, hname, String.toList_ofList, String.toList_ofList]
      exact Chars.cutLast?_eq_some hcut

theorem eq_parentDir_append (h : '/' ∈ path.toList) : path = parentDir path ++ "/" ++ fileName path := by
  apply String.toList_injective
  rw [(toList_of_mem h).1]
  simp

theorem slash_notMem_fileName (path : String) : '/' ∉ (fileName path).toList := by
  by_cases h : '/' ∈ path.toList
  · exact (toList_of_mem h).2
  · rw [fileName_of_notMem h]
    exact h

theorem segments_of_notMem (h : '/' ∉ path.toList) : segments path = [path] := by
  rw [segments, Chars.splitOn_eq, List.splitOn_eq_singleton h, List.map_singleton, String.ofList_toList]

theorem segments_fileName (path : String) : segments (fileName path) = [fileName path] :=
  segments_of_notMem (slash_notMem_fileName path)

theorem segments_of_mem (h : '/' ∈ path.toList) :
    segments path = segments (parentDir path) ++ [fileName path] := by
  calc
    segments path = segments (parentDir path ++ "/" ++ fileName path) := by rw [← eq_parentDir_append h]
    _ = segments (parentDir path) ++ [fileName path] := by rw [segments_append_slash, segments_fileName]

/-- A path is its segments with slashes between them. -/
theorem intercalate_segments (path : String) : "/".intercalate (segments path) = path := by
  have hchars : (segments path).map String.toList = path.toList.splitOn '/' := by
    rw [segments, Chars.splitOn_eq, List.map_map]
    simp
  apply String.toList_injective
  rw [String.toList_intercalate, hchars]
  exact List.intercalate_splitOn '/'

theorem segments_injective : Function.Injective segments := by
  intro path other h
  rw [← intercalate_segments path, h, intercalate_segments]

theorem parentDir_eq_intercalate (path : String) : parentDir path = "/".intercalate (segments path).dropLast := by
  by_cases h : '/' ∈ path.toList
  · rw [segments_of_mem h, List.dropLast_concat, intercalate_segments]
  · rw [segments_of_notMem h, parentDir_of_notMem h]
    rfl

/-- A path has one segment more than slashes. -/
theorem length_segments (path : String) : (segments path).length = path.toList.count '/' + 1 := by
  rw [segments, Chars.splitOn_eq, List.length_map]
  induction path.toList using splitOn_induction '/' with
  | piece text htext =>
      rw [List.splitOn_eq_singleton htext, List.count_eq_zero_of_not_mem htext]
      rfl
  | cut front rest hfront ih =>
      rw [List.splitOn_append_cons_self, List.splitOn_eq_singleton hfront, List.length_append, ih,
        List.count_append, List.count_eq_zero_of_not_mem hfront, List.count_cons_self, List.length_singleton]
      omega

/-! ### The last extension -/

/-- What a stem lacks of its name: nothing, or a dot and what stands behind it, with no other dot. -/
def IsExtension (text : String) : Prop :=
  text = "" ∨ ∃ rest, text = "." ++ rest ∧ '.' ∉ rest.toList ∧ '/' ∉ rest.toList

/-- Paths that differ in their last extension at most. -/
def AlikeBeforeExtension (path other : String) : Prop :=
  ∃ front ext ext', IsExtension ext ∧ IsExtension ext' ∧ path = front ++ ext ∧ other = front ++ ext'

/-- Paths without a dot have no extension to differ in. -/
theorem AlikeBeforeExtension.eq_of_notMem {path other : String} (h : AlikeBeforeExtension path other)
    (hpath : '.' ∉ path.toList) (hother : '.' ∉ other.toList) : path = other := by
  have hbare : ∀ {front ext : String}, IsExtension ext → '.' ∉ (front ++ ext).toList → front ++ ext = front := by
    rintro front ext (rfl | ⟨rest, rfl, -⟩) hdot
    · exact String.append_empty
    · simp at hdot
  obtain ⟨front, ext, ext', hext, hext', rfl, rfl⟩ := h
  rw [hbare hext hpath, hbare hext' hother]

theorem exists_fileName_eq (path : String) : ∃ ext, IsExtension ext ∧ fileName path = fileStem path ++ ext := by
  have hwhole : fileStem path = fileName path →
      ∃ ext, IsExtension ext ∧ fileName path = fileStem path ++ ext := by
    intro h
    exact ⟨"", Or.inl rfl, by rw [h, String.append_empty]⟩
  cases hcut : Chars.cutLast? '.' (fileName path).toList with
  | none =>
      apply hwhole
      rw [fileStem, hcut]
  | some cut =>
      obtain ⟨stem, rest⟩ := cut
      cases stem with
      | nil =>
          apply hwhole
          rw [fileStem, hcut]
      | cons c stem =>
          obtain ⟨hname, hrest⟩ := Chars.cutLast?_eq_some hcut
          have hslash : '/' ∉ rest := by
            intro hmem
            apply slash_notMem_fileName path
            rw [hname]
            exact List.mem_append_right _ (List.mem_cons_of_mem _ hmem)
          refine ⟨"." ++ String.ofList rest, Or.inr ⟨_, rfl, ?_, ?_⟩, ?_⟩
          · rwa [String.toList_ofList]
          · rwa [String.toList_ofList]
          · apply String.toList_injective
            rw [fileStem, hcut, hname]
            simp

theorem slash_notMem_fileStem (path : String) : '/' ∉ (fileStem path).toList := by
  obtain ⟨ext, -, hname⟩ := exists_fileName_eq path
  intro hmem
  apply slash_notMem_fileName path
  rw [hname, String.toList_append]
  exact List.mem_append_left _ hmem

/-! ### Paths with an ordinary name in each segment -/

/-- A path below the directory that it is read from, written without detours. -/
def IsOrdinary (path : String) : Prop :=
  ∀ segment ∈ segments path, segment ≠ "" ∧ segment ≠ "." ∧ segment ≠ ".."

namespace IsOrdinary

variable {other name : String}

theorem parentDir_ne_empty (h : IsOrdinary path) (hslash : '/' ∈ path.toList) : parentDir path ≠ "" := by
  intro hempty
  have hmem : "" ∈ segments path := by
    rw [segments_of_mem hslash, hempty]
    exact List.mem_append_left _ List.mem_cons_self
  exact (h "" hmem).1 rfl

/-- The directory of an ordinary path ends in no slash, so joining takes nothing away from it. -/
theorem trimEnd_parentDir (h : IsOrdinary path) (hslash : '/' ∈ path.toList) :
    Chars.trimEnd '/' (parentDir path).toList = (parentDir path).toList := by
  refine List.rdropWhile_eq_self_iff.mpr fun hne hlast => ?_
  have hsplit : parentDir path = String.ofList (parentDir path).toList.dropLast ++ "/" ++ "" := by
    apply String.toList_injective
    rw [String.append_empty, String.toList_append, String.toList_ofList]
    conv_lhs => rw [← List.dropLast_append_getLast hne, of_decide_eq_true hlast]
    rfl
  have hmem : "" ∈ segments path := by
    rw [segments_of_mem hslash, hsplit, segments_append_slash]
    exact List.mem_append_left _ (List.mem_append_right _ List.mem_cons_self)
  exact (h "" hmem).1 rfl

/-- A name in the directory of an ordinary path takes the place of the last segment. -/
theorem segments_joinRoot (h : IsOrdinary path) (name : String) :
    segments (joinRoot (parentDir path) name) = (segments path).dropLast ++ segments name := by
  by_cases hslash : '/' ∈ path.toList
  · have hdot : parentDir path ≠ "." := by
      intro hdot
      have hmem : "." ∈ segments path := by
        rw [segments_of_mem hslash, hdot]
        exact List.mem_append_left _ List.mem_cons_self
      exact (h "." hmem).2.1 rfl
    rw [joinRoot_eq (h.parentDir_ne_empty hslash) hdot, h.trimEnd_parentDir hslash, String.ofList_toList,
      segments_append_slash, segments_of_mem hslash, List.dropLast_concat]
  · rw [parentDir_of_notMem hslash, segments_of_notMem hslash, joinRoot, if_pos (Or.inl rfl)]
    rfl

/-- Two ordinary paths with the same directory and the same stem differ in their last extension at most. -/
theorem alikeBeforeExtension (h : IsOrdinary path) (hother : IsOrdinary other)
    (hdir : parentDir path = parentDir other) (hstem : fileStem path = fileStem other) :
    AlikeBeforeExtension path other := by
  obtain ⟨ext, hext, hname⟩ := exists_fileName_eq path
  obtain ⟨ext', hext', hname'⟩ := exists_fileName_eq other
  by_cases hslash : '/' ∈ path.toList
  · have hslash' : '/' ∈ other.toList := by
      by_contra hbare
      exact h.parentDir_ne_empty hslash (hdir.trans (parentDir_of_notMem hbare))
    refine ⟨parentDir path ++ "/" ++ fileStem path, ext, ext', hext, hext', ?_, ?_⟩
    · rw [String.append_assoc, ← hname]
      exact eq_parentDir_append hslash
    · rw [hdir, hstem, String.append_assoc, ← hname']
      exact eq_parentDir_append hslash'
  · have hslash' : '/' ∉ other.toList := by
      intro hmem
      exact hother.parentDir_ne_empty hmem (hdir.symm.trans (parentDir_of_notMem hslash))
    refine ⟨fileStem path, ext, ext', hext, hext', ?_, ?_⟩
    · rw [← hname, fileName_of_notMem hslash]
    · rw [hstem, ← hname', fileName_of_notMem hslash']

end IsOrdinary

end AssetPipeline.Path
