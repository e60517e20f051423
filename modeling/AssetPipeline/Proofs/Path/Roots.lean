import AssetPipeline.Path.Basic
import Mathlib.Data.List.DropRight
import Mathlib.Tactic.SplitIfs

/-! Root directories in the form the build file uses. Cleaning a root leaves nothing in it that cleaning
would take away. -/

namespace AssetPipeline.Path

theorem dropDotSlash_suffix (path : List Char) : dropDotSlash path <:+ path := by
  fun_induction dropDotSlash path with
  | case1 path ih =>
      have hdropped : path.dropWhile (· = '/') <:+ path := List.dropWhile_suffix _
      exact (ih.trans hdropped).trans ((List.suffix_cons _ _).trans (List.suffix_cons _ _))
  | case2 path _ => exact List.suffix_refl _

theorem not_prefix_dropDotSlash (path : List Char) : ¬ ['.', '/'] <+: dropDotSlash path := by
  fun_induction dropDotSlash path with
  | case1 path ih => exact ih
  | case2 path hpath =>
      rintro ⟨rest, rfl⟩
      exact hpath rest rfl

theorem dropDotSlash_eq_self {path : List Char} (h : ¬ ['.', '/'] <+: path) :
    dropDotSlash path = path := by
  rw [dropDotSlash]
  rintro rest rfl
  exact h ⟨rest, rfl⟩

theorem slashed_eq_self {path : String} (h : '\\' ∉ path.toList) : slashed path = path := by
  apply String.toList_injective
  rw [slashed, String.toList_map]
  refine List.map_congr_left (fun c hc => if_neg ?_) |>.trans (List.map_id _)
  rintro rfl
  exact h hc

theorem backslash_notMem_slashed (path : String) : '\\' ∉ (slashed path).toList := by
  rw [slashed, String.toList_map, List.mem_map]
  rintro ⟨c, -, hc⟩
  split_ifs at hc with hslash
  · exact absurd hc (by decide)
  · exact hslash hc

/-- A root without what cleaning takes away: backslashes, `./` at the front and slashes at the end. -/
structure Tidy (root : String) : Prop where
  ne_empty : root ≠ ""
  no_backslash : '\\' ∉ root.toList
  no_dotSlash : ¬ ['.', '/'] <+: root.toList
  no_slash_last : ∀ h : root.toList ≠ [], root.toList.getLast h ≠ '/'

theorem tidy_dot : Tidy "." :=
  ⟨by decide, by decide, by decide, by decide⟩

/-- A root of slashes alone is the top of the file system; any other becomes tidy. -/
theorem cleanRoot_eq_slash_or_tidy (root : String) : cleanRoot root = "/" ∨ Tidy (cleanRoot root) := by
  rw [cleanRoot]
  split_ifs with hslashes
  · exact Or.inl rfl
  · refine Or.inr ?_
    split
    · exact tidy_dot
    · rename_i cleaned hcleaned
      have htrimmed : Chars.trimEnd '/' (dropDotSlash (slashed root).toList) <+:
          dropDotSlash (slashed root).toList := List.rdropWhile_prefix _ _
      have hlast := List.rdropWhile_last_not (fun c => decide (c = '/')) (dropDotSlash (slashed root).toList)
      refine ⟨?_, ?_, ?_, ?_⟩
      · intro hempty
        have hnil := congrArg String.toList hempty
        rw [String.toList_ofList] at hnil
        exact hcleaned hnil
      · rw [String.toList_ofList]
        intro hmem
        exact backslash_notMem_slashed root ((dropDotSlash_suffix _).subset (htrimmed.subset hmem))
      · rw [String.toList_ofList]
        intro hdots
        exact not_prefix_dropDotSlash _ (hdots.trans htrimmed)
      · rw [String.toList_ofList]
        intro hne heq
        exact hlast hne (decide_eq_true heq)

theorem Tidy.cleanRoot_eq {root : String} (h : Tidy root) : cleanRoot root = root := by
  have hne : root.toList ≠ [] := fun hnil => h.ne_empty (String.toList_eq_nil_iff.mp hnil)
  have hnotAll : ¬ (root.toList ≠ [] ∧ root.toList.all (· = '/') = true) := by
    rintro ⟨-, hall⟩
    rw [List.all_eq_true] at hall
    exact h.no_slash_last hne (of_decide_eq_true (hall _ (List.getLast_mem hne)))
  have htrim : Chars.trimEnd '/' root.toList = root.toList :=
    List.rdropWhile_eq_self_iff.mpr fun hne heq => h.no_slash_last hne (of_decide_eq_true heq)
  rw [cleanRoot, slashed_eq_self h.no_backslash, if_neg hnotAll, dropDotSlash_eq_self h.no_dotSlash, htrim]
  split
  · rename_i hnil
    exact absurd hnil hne
  · rw [String.ofList_toList]

/-- Cleaning a root once is enough. -/
theorem cleanRoot_cleanRoot (root : String) : cleanRoot (cleanRoot root) = cleanRoot root := by
  rcases cleanRoot_eq_slash_or_tidy root with hslash | htidy
  · rw [hslash]
    decide +kernel
  · exact htidy.cleanRoot_eq

theorem cleanRoot_ne_empty (root : String) : cleanRoot root ≠ "" := by
  rcases cleanRoot_eq_slash_or_tidy root with hslash | htidy
  · rw [hslash]
    decide
  · exact htidy.ne_empty

/-- Of the cleaned roots only the top of the file system ends in a slash. -/
theorem cleanRoot_eq_slash_of_getLast? {root : String} (h : (cleanRoot root).toList.getLast? = some '/') :
    cleanRoot root = "/" := by
  rcases cleanRoot_eq_slash_or_tidy root with hslash | htidy
  · exact hslash
  · have hne : (cleanRoot root).toList ≠ [] := fun hnil => htidy.ne_empty (String.toList_eq_nil_iff.mp hnil)
    rw [List.getLast?_eq_some_getLast hne] at h
    exact absurd (Option.some.inj h) (htidy.no_slash_last hne)

theorem not_prefix_cleanRoot (root : String) : ¬ ['.', '/'] <+: (cleanRoot root).toList := by
  rcases cleanRoot_eq_slash_or_tidy root with hslash | htidy
  · rw [hslash]
    decide
  · exact htidy.no_dotSlash

end AssetPipeline.Path
