import AssetPipeline.Build.Pattern
import AssetPipeline.Proofs.Files.Entries
import AssetPipeline.Proofs.Path.Roots

/-! Paths as a listing shows them. As long as each name is a text without a backslash, the segments of a
listed path are the names that it was put together from, and whether one is hidden shows in its text. -/

namespace AssetPipeline

namespace Path

section Texts

variable {texts : List String}

theorem slashed_intercalate (h : ∀ text ∈ texts, '\\' ∉ text.toList) :
    slashed ("/".intercalate texts) = "/".intercalate texts := by
  apply slashed_eq_self
  rw [String.toList_intercalate]
  apply notMem_intercalate (by decide)
  rw [List.forall_mem_map]
  exact h

theorem segments_intercalate (hne : texts ≠ []) (h : ∀ text ∈ texts, '/' ∉ text.toList) :
    segments ("/".intercalate texts) = texts := by
  have hsplit : ("/".toList.intercalate (texts.map String.toList)).splitOn '/' = texts.map String.toList := by
    apply List.splitOn_intercalate
    · rw [List.forall_mem_map]
      exact h
    · simpa using hne
  rw [segments, Chars.splitOn_eq, String.toList_intercalate, hsplit, List.map_map]
  simp

end Texts

variable {names : List RawPath}

theorem segments_shown_join (hne : names ≠ []) (hslash : ∀ name ∈ names, RawPath.slash ∉ name.bytes) :
    segments (RawPath.join names).shown = names.map RawPath.shown := by
  rw [RawPath.shown_join]
  refine segments_intercalate (by simpa using hne) ?_
  rw [List.forall_mem_map]
  exact fun name hname => RawPath.slash_notMem_shown (hslash name hname)

theorem listed_eq (h : ∀ name ∈ names, '\\' ∉ name.shown.toList) : listed names = (RawPath.join names).shown := by
  rw [listed, RawPath.shown_join]
  refine slashed_intercalate ?_
  rw [List.forall_mem_map]
  exact h

/-- A path without a hidden segment. -/
def isVisible (path : String) : Bool :=
  (segments path).all (! isHidden ·)

end Path

/-- A name that a listing shows as it is: a text, and one without backslashes. -/
def RawPath.IsKept (name : RawPath) : Prop :=
  ∃ text : String, name = text ∧ '\\' ∉ text.toList

namespace RawPath

variable {name : RawPath} {names : List RawPath}

@[simp] theorem isKept_ofString_iff {text : String} : (text : RawPath).IsKept ↔ '\\' ∉ text.toList := by
  simp [IsKept]

theorem IsKept.ofString_shown (h : name.IsKept) : (name.shown : RawPath) = name := by
  obtain ⟨text, rfl, -⟩ := h
  rw [shown_ofString]

theorem IsKept.isHidden_shown (h : name.IsKept) : Path.isHidden name.shown = isHidden name := by
  rw [← isHidden_ofString, h.ofString_shown]

theorem IsKept.backslash_notMem (h : name.IsKept) : '\\' ∉ name.shown.toList := by
  obtain ⟨text, rfl, htext⟩ := h
  rwa [shown_ofString]

theorem map_ofString_shown (h : ∀ name ∈ names, name.IsKept) : (names.map shown).map ofString = names := by
  rw [List.map_map]
  exact (List.map_congr_left fun name hname => (h name hname).ofString_shown).trans (List.map_id _)

end RawPath

/-- What every source directory on a disk does: it lists each file once and in order, and a listing
without the hidden files holds the others just the same. -/
structure Sources.Lists (s : Sources) : Prop where
  ascending : ∀ hidden files, s.files hidden = .ok files → files.Pairwise (· < ·)
  files_false : s.files false = (s.files true).map (List.filter Path.isVisible)

namespace Workspace

variable {w : Workspace}

theorem listFiles_eq_ok {root : String} {found : Found maxLinks} {entries : List (RawPath × Node)}
    (hlocate : w.locate root = .ok found) (hat : w.root.at? found.place = some (.dir entries)) (hidden : Bool) :
    w.listFiles root hidden =
      .ok (((w.root.files hidden found.left found.place [found.place] (Path.below root "").utf8ByteSize
        entries).map Path.listed).mergeSort (· ≤ ·)) := by
  rw [listFiles, hlocate]
  dsimp only
  rw [hat]

theorem listFiles_of_isDir_eq_false {root : String} (h : w.isDir root = false) (hidden : Bool) :
    w.listFiles root hidden = .error
      (match w.locate root with
        | .error fault => .file fault
        | .ok _ => .notADirectory) := by
  rw [listFiles]
  cases hlocate : w.locate root with
  | error fault => rfl
  | ok found =>
      dsimp only
      split
      · rename_i entries hat
        rw [isDir_iff.mpr ⟨found, hlocate, Node.part?_eq_dir_iff.mpr ⟨entries, hat⟩⟩] at h
        cases h
      · rfl

theorem isDir_of_listFiles {root : String} {hidden : Bool} {files : List String}
    (h : w.listFiles root hidden = .ok files) : w.isDir root = true := by
  rw [← Bool.not_eq_false]
  intro hdir
  rw [listFiles_of_isDir_eq_false hdir] at h
  cases h

end Workspace

end AssetPipeline
