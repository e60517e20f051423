import AssetPipeline.Build.Pattern
import AssetPipeline.Proofs.Text
import Mathlib.Data.List.DropRight
import Mathlib.Data.List.Infix
import Mathlib.Tactic.SplitIfs

/-! Segments of a path. A segment begins where the text begins, or behind a slash; where backslashes
separate too, also behind one of these. That decides which segments are hidden. A path that is joined to a
root has its segments behind those of the root. -/

namespace AssetPipeline

theorem infix_append_cons_iff {separator c : Char} {front rest : List Char} (hfront : separator ∉ front) :
    [separator, c] <:+: front ++ separator :: rest ↔ rest.head? = some c ∨ [separator, c] <:+: rest := by
  induction front with
  | nil =>
      rw [List.nil_append, List.infix_cons_iff, List.cons_prefix_cons]
      cases rest with
      | nil => simp
      | cons d rest => simp [eq_comm (a := c)]
  | cons d front ih =>
      rw [List.mem_cons, not_or] at hfront
      rw [List.cons_append, List.infix_cons_iff, List.cons_prefix_cons, ih hfront.2]
      simp [hfront.1]

/-- A piece begins with a character where the text does, or where a separator stands before it. -/
theorem exists_head?_iff {separator c : Char} (hc : c ≠ separator) (text : List Char) :
    (∃ piece ∈ text.splitOn separator, piece.head? = some c) ↔
      text.head? = some c ∨ [separator, c] <:+: text := by
  induction text using splitOn_induction separator with
  | piece text htext =>
      have hnone : ¬ [separator, c] <:+: text := fun h => htext (h.subset List.mem_cons_self)
      rw [List.splitOn_eq_singleton htext]
      simp [hnone]
  | cut front rest hfront ih =>
      have hhead : (front ++ separator :: rest).head? = some c ↔ front.head? = some c := by
        cases front with
        | nil => simp [hc.symm]
        | cons d front => rfl
      rw [List.splitOn_append_cons_self, List.splitOn_eq_singleton hfront, infix_append_cons_iff hfront,
        hhead, ← ih]
      simp

/-! ### Backslashes -/

/-- A character of a path in which backslashes separate. -/
def slashedChar (c : Char) : Char :=
  if c = '\\' then '/' else c

theorem map_slashedChar {text : List Char} (h : '\\' ∉ text) : text.map slashedChar = text := by
  refine (List.map_congr_left fun c hc => if_neg ?_).trans (List.map_id _)
  rintro rfl
  exact h hc

theorem splitOn_map_slashedChar_of_notMem {text : List Char} (h : '/' ∉ text) :
    (text.map slashedChar).splitOn '/' = text.splitOn '\\' := by
  induction text using splitOn_induction '\\' with
  | piece text htext =>
      rw [map_slashedChar htext, List.splitOn_eq_singleton h, List.splitOn_eq_singleton htext]
  | cut front rest hfront ih =>
      rw [List.mem_append, List.mem_cons, not_or, not_or] at h
      have hcut : (front ++ '\\' :: rest).map slashedChar = front ++ '/' :: rest.map slashedChar := by
        rw [List.map_append, map_slashedChar hfront]
        rfl
      rw [hcut, List.splitOn_append_cons_self, List.splitOn_append_cons_self, ih h.2.2,
        List.splitOn_eq_singleton h.1, List.splitOn_eq_singleton hfront]

/-- Where backslashes separate, each segment is cut at its backslashes. -/
theorem splitOn_map_slashedChar (text : List Char) :
    (text.map slashedChar).splitOn '/' = (text.splitOn '/').flatMap (List.splitOn '\\') := by
  induction text using splitOn_induction '/' with
  | piece text htext =>
      rw [splitOn_map_slashedChar_of_notMem htext, List.splitOn_eq_singleton htext, List.flatMap_singleton]
  | cut front rest hfront ih =>
      have hcut : (front ++ '/' :: rest).map slashedChar =
          front.map slashedChar ++ '/' :: rest.map slashedChar := List.map_append
      rw [hcut, List.splitOn_append_cons_self, List.splitOn_append_cons_self, ih,
        splitOn_map_slashedChar_of_notMem hfront, List.splitOn_eq_singleton hfront, List.flatMap_append,
        List.flatMap_singleton]

namespace Path

variable {text : String}

theorem infix_of_mem_segments {segment : String} (h : segment ∈ segments text) :
    segment.toList <:+: text.toList := by
  rw [segments, Chars.splitOn_eq] at h
  obtain ⟨piece, hpiece, rfl⟩ := List.mem_map.mp h
  rw [String.toList_ofList]
  exact infix_of_mem_splitOn hpiece

theorem segments_slashed (text : String) :
    segments (slashed text) =
      (segments text).flatMap fun segment => (segment.toList.splitOn '\\').map String.ofList := by
  have hchars : (slashed text).toList = text.toList.map slashedChar := String.toList_map
  rw [segments, segments, Chars.splitOn_eq, Chars.splitOn_eq, hchars, splitOn_map_slashedChar,
    List.map_flatMap, List.flatMap_map]
  simp only [String.toList_ofList]

theorem isHidden_ofList (chars : List Char) : isHidden (String.ofList chars) = true ↔
    chars.head? = some '.' := by
  rw [isHidden, String.toList_ofList, decide_eq_true_eq]

/-- Where backslashes separate, a hidden segment stands at the front of a segment or behind a backslash. -/
theorem exists_isHidden_slashed_iff : (∃ segment ∈ segments (slashed text), isHidden segment = true) ↔
    ∃ segment ∈ segments text, isHidden segment = true ∨ ['\\', '.'] <:+: segment.toList := by
  have hpieces : ∀ segment : String,
      (∃ piece ∈ segment.toList.splitOn '\\', isHidden (String.ofList piece) = true) ↔
        isHidden segment = true ∨ ['\\', '.'] <:+: segment.toList := by
    intro segment
    simp only [isHidden_ofList]
    rw [exists_head?_iff (show '.' ≠ '\\' by decide), isHidden, decide_eq_true_eq]
  rw [segments_slashed]
  simp only [List.mem_flatMap, List.mem_map, ← hpieces]
  constructor
  · rintro ⟨_, ⟨segment, hsegment, piece, hpiece, rfl⟩, hhidden⟩
    exact ⟨segment, hsegment, piece, hpiece, hhidden⟩
  · rintro ⟨segment, hsegment, piece, hpiece, hhidden⟩
    exact ⟨_, ⟨segment, hsegment, piece, hpiece, rfl⟩, hhidden⟩

/-! ### Joined paths -/

section Joined

variable {root path : String}

theorem segments_append_slash (front rest : String) :
    segments (front ++ "/" ++ rest) = segments front ++ segments rest := by
  have hchars : (front ++ "/" ++ rest).toList = front.toList ++ '/' :: rest.toList := by simp
  rw [segments, segments, segments, Chars.splitOn_eq, Chars.splitOn_eq, Chars.splitOn_eq, hchars,
    List.splitOn_append_cons_self, List.map_append]

/-- Slashes at the end of a path only add empty segments. -/
theorem segments_trimEnd (text : List Char) :
    (segments (String.ofList (Chars.trimEnd '/' text))).filter (· ≠ "") =
      (segments (String.ofList text)).filter (· ≠ "") := by
  induction text using List.reverseRecOn with
  | nil => rfl
  | append_singleton text c ih =>
      by_cases hc : c = '/'
      · subst hc
        have htrim : Chars.trimEnd '/' (text ++ ['/']) = Chars.trimEnd '/' text := by
          simp [Chars.trimEnd]
        have hsplit : String.ofList (text ++ ['/']) = String.ofList text ++ "/" ++ "" := by simp
        rw [htrim, ih, hsplit, segments_append_slash, List.filter_append]
        exact (List.append_nil _).symm
      · have htrim : Chars.trimEnd '/' (text ++ [c]) = text ++ [c] := by
          simp [Chars.trimEnd, hc]
        rw [htrim]

theorem joinRoot_eq (hempty : root ≠ "") (hdot : root ≠ ".") :
    joinRoot root path = String.ofList (Chars.trimEnd '/' root.toList) ++ "/" ++ path := by
  rw [joinRoot, if_neg (not_or.mpr ⟨hempty, hdot⟩)]
  split_ifs with hslash
  · rw [hslash]
    rfl
  · rfl

theorem joinRoot_injective (root : String) : Function.Injective (joinRoot root) := by
  intro path other h
  rw [joinRoot, joinRoot] at h
  split_ifs at h
  · exact h
  · exact String.append_right_inj _ |>.mp h
  · exact String.append_right_inj _ |>.mp h

/-- What a cleaned root begins with is what it began with, the slash behind it included. -/
theorem head?_trimEnd_append (root rest : List Char) (hne : root ≠ []) :
    (Chars.trimEnd '/' root ++ '/' :: rest).head? = root.head? := by
  obtain ⟨cut, hcut⟩ : Chars.trimEnd '/' root <+: root := List.rdropWhile_prefix _ _
  cases htrim : Chars.trimEnd '/' root with
  | nil =>
      obtain ⟨c, root, rfl⟩ := List.exists_cons_of_ne_nil hne
      have hall := List.rdropWhile_eq_nil_iff.mp htrim c List.mem_cons_self
      rw [of_decide_eq_true hall]
      rfl
  | cons c trimmed =>
      rw [← hcut, htrim]
      rfl

end Joined

end Path

end AssetPipeline
