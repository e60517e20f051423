import AssetPipeline.Path.Lookup
import AssetPipeline.Proofs.Path.Parents
import AssetPipeline.Proofs.Path.Roots

/-! Where a path leads, as far as its text says: from the top or from the current directory, and by which
steps. Cleaning a root keeps that, and a path joined to a root makes the steps of the root first. Only the
directory part of a path may lead elsewhere than to the directory of what the path leads to. -/

namespace AssetPipeline.Path

/-- The segments of a path that are steps of their own. -/
def steps (path : String) : List String :=
  (segments path).filter isStep

/-- Where a path leads: a path with a slash at its front from the top, any other from the current
directory. -/
@[ext]
structure Address where
  absolute : Bool
  steps : List String
  deriving DecidableEq

def address (path : String) : Address where
  absolute := path.toList.head? = some '/'
  steps := steps path

namespace Address

/-- An address with more steps behind its own. -/
def below (place : Address) (more : List String) : Address :=
  { place with steps := place.steps ++ more }

/-- An address without its last step. -/
def parent (place : Address) : Address :=
  { place with steps := place.steps.dropLast }

end Address

variable {root path : String} {text : List Char}

/-! ### Steps -/

theorem Address.below_left_inj {place other : Address} {more : List String} :
    place.below more = other.below more ↔ place = other := by
  rw [Address.ext_iff, Address.ext_iff, below, below]
  exact and_congr_right fun _ => List.append_left_inj more

theorem steps_append_slash (front rest : String) : steps (front ++ "/" ++ rest) = steps front ++ steps rest := by
  rw [steps, segments_append_slash, List.filter_append]
  rfl

theorem steps_slash_cons (text : List Char) : steps (String.ofList ('/' :: text)) = steps (String.ofList text) := by
  have hsplit : String.ofList ('/' :: text) = "" ++ "/" ++ String.ofList text := by
    apply String.toList_injective
    simp
  rw [hsplit, steps_append_slash]
  rfl

theorem steps_dotSlash (text : List Char) :
    steps (String.ofList ('.' :: '/' :: text)) = steps (String.ofList text) := by
  have hsplit : String.ofList ('.' :: '/' :: text) = "." ++ "/" ++ String.ofList text := by
    apply String.toList_injective
    simp
  rw [hsplit, steps_append_slash]
  rfl

theorem steps_dropWhile (text : List Char) :
    steps (String.ofList (text.dropWhile (· = '/'))) = steps (String.ofList text) := by
  induction text with
  | nil => rfl
  | cons c text ih =>
      by_cases hc : c = '/'
      · have hdrop : (c :: text).dropWhile (· = '/') = text.dropWhile (· = '/') :=
          List.dropWhile_cons_of_pos (decide_eq_true hc)
        rw [hdrop, ih, hc, steps_slash_cons]
      · have hkeep : (c :: text).dropWhile (· = '/') = c :: text :=
          List.dropWhile_cons_of_neg fun heq => hc (of_decide_eq_true heq)
        rw [hkeep]

theorem steps_trimEnd (text : List Char) :
    steps (String.ofList (Chars.trimEnd '/' text)) = steps (String.ofList text) := by
  have hskip : ∀ segs : List String, (segs.filter (· ≠ "")).filter isStep = segs.filter isStep := by
    intro segs
    rw [List.filter_filter]
    refine List.filter_congr fun segment _ => ?_
    by_cases hempty : segment = "" <;> simp [isStep, hempty]
  rw [steps, ← hskip, segments_trimEnd, hskip]
  rfl

theorem steps_of_all_slashes (h : ∀ c ∈ text, c = '/') : steps (String.ofList text) = [] := by
  have hnil : Chars.trimEnd '/' text = [] :=
    List.rdropWhile_eq_nil_iff.mpr fun c hc => decide_eq_true (h c hc)
  rw [← steps_trimEnd, hnil]
  rfl

/-- A path without slashes makes one step at most. -/
theorem steps_of_notMem (h : '/' ∉ path.toList) : steps path = if isStep path then [path] else [] := by
  rw [steps, segments_of_notMem h, List.filter_singleton]
  cases isStep path <;> rfl

/-! ### Cleaned roots -/

theorem address_dropDotSlash (path : List Char) :
    address (String.ofList (dropDotSlash path)) = address (String.ofList path) := by
  fun_induction dropDotSlash path with
  | case1 path ih =>
      have hhead : (path.dropWhile (· = '/')).head? ≠ some '/' := by
        intro heq
        have hnot := List.head?_dropWhile_not (fun c => decide (c = '/')) path
        rw [heq] at hnot
        exact absurd hnot (by decide)
      rw [ih, address, address, steps_dropWhile, steps_dotSlash, String.toList_ofList, String.toList_ofList,
        decide_eq_false hhead]
      rfl
  | case2 path _ => rfl

/-- Slashes at the end of a path lead nowhere, unless they are all of it. -/
theorem address_trimEnd (h : text = [] ∨ ∃ c ∈ text, c ≠ '/') :
    address (String.ofList (Chars.trimEnd '/' text)) = address (String.ofList text) := by
  rcases h with rfl | ⟨c, hc, hne⟩
  · rfl
  · obtain ⟨cut, hcut⟩ : Chars.trimEnd '/' text <+: text := List.rdropWhile_prefix _ _
    have htrimmed : Chars.trimEnd '/' text ≠ [] := by
      intro hnil
      exact hne (of_decide_eq_true (List.rdropWhile_eq_nil_iff.mp hnil c hc))
    have hhead : (Chars.trimEnd '/' text).head? = text.head? := by
      rw [← List.head?_append_of_ne_nil _ htrimmed, hcut]
    rw [address, address, String.toList_ofList, String.toList_ofList, hhead, steps_trimEnd]

/-- Slashes alone are what is left of a root only if nothing else was in it. -/
theorem exists_ne_slash_of_dropDotSlash {root : List Char} (h : ¬ (root ≠ [] ∧ root.all (· = '/') = true)) :
    dropDotSlash root = [] ∨ ∃ c ∈ dropDotSlash root, c ≠ '/' := by
  by_contra hleft
  push Not at hleft
  obtain ⟨hne, hall⟩ := hleft
  have hhead : (dropDotSlash root).head? = some '/' := by
    rw [List.head?_eq_some_head hne, hall _ (List.head_mem hne)]
  have habsolute : root.head? = some '/' := by
    have hsame := congrArg Address.absolute (address_dropDotSlash root)
    rw [address, address, String.toList_ofList, String.toList_ofList, hhead] at hsame
    exact of_decide_eq_true hsame.symm
  have hdots : ¬ ['.', '/'] <+: root := by
    rintro ⟨rest, rfl⟩
    cases habsolute
  rw [dropDotSlash_eq_self hdots] at hne hall
  exact h ⟨hne, List.all_eq_true.mpr fun c hc => decide_eq_true (hall c hc)⟩

/-- A root without backslashes and its cleaned form lead to the same place. -/
theorem address_cleanRoot (h : '\\' ∉ root.toList) : address (cleanRoot root) = address root := by
  rw [cleanRoot, slashed_eq_self h]
  split_ifs with hslashes
  · obtain ⟨hne, hall⟩ := hslashes
    rw [List.all_eq_true] at hall
    have hall' : ∀ c ∈ root.toList, c = '/' := fun c hc => of_decide_eq_true (hall c hc)
    have hhead : root.toList.head? = some '/' := by
      rw [List.head?_eq_some_head hne, hall' _ (List.head_mem hne)]
    have hsteps : steps root = [] := by
      rw [← steps_of_all_slashes hall', String.ofList_toList]
    rw [address, address, hhead, hsteps]
    rfl
  · calc
      _ = address (String.ofList (Chars.trimEnd '/' (dropDotSlash root.toList))) := by
        cases Chars.trimEnd '/' (dropDotSlash root.toList) <;> rfl
      _ = address (String.ofList (dropDotSlash root.toList)) :=
        address_trimEnd (exists_ne_slash_of_dropDotSlash hslashes)
      _ = address root := by rw [address_dropDotSlash, String.ofList_toList]

/-! ### Joined paths -/

/-- A path that is not absolute is joined to a root by making its steps behind those of the root. -/
theorem address_joinRoot (h : path.toList.head? ≠ some '/') :
    address (joinRoot root path) = (address root).below (steps path) := by
  by_cases hhere : root = "" ∨ root = "."
  · rw [joinRoot, if_pos hhere, address, decide_eq_false h]
    rcases hhere with rfl | rfl <;> rfl
  · rw [not_or] at hhere
    have hroot : root.toList ≠ [] := fun hnil => hhere.1 (String.toList_eq_nil_iff.mp hnil)
    have hchars : (String.ofList (Chars.trimEnd '/' root.toList) ++ "/" ++ path).toList =
        Chars.trimEnd '/' root.toList ++ '/' :: path.toList := by
      simp
    rw [joinRoot_eq hhere.1 hhere.2, address, hchars, head?_trimEnd_append _ _ hroot, steps_append_slash,
      steps_trimEnd, String.ofList_toList]
    rfl

/-! ### Directories -/

theorem steps_of_mem (h : '/' ∈ path.toList) : steps path = steps (parentDir path) ++ steps (fileName path) := by
  calc
    steps path = steps (parentDir path ++ "/" ++ fileName path) := by rw [← eq_parentDir_append h]
    _ = steps (parentDir path) ++ steps (fileName path) := steps_append_slash _ _

/-- The directory part of a path begins as the path does, unless it is empty. -/
theorem head?_parentDir (hne : parentDir path ≠ "") : (parentDir path).toList.head? = path.toList.head? := by
  have hslash : '/' ∈ path.toList := by
    by_contra hbare
    exact hne (parentDir_of_notMem hbare)
  have hdir : (parentDir path).toList ≠ [] := fun hnil => hne (String.toList_eq_nil_iff.mp hnil)
  rw [(toList_of_mem hslash).1, List.head?_append_of_ne_nil _ hdir]

theorem address_parentDir_of_notMem (h : '/' ∉ path.toList) :
    address (parentDir path) = (address path).parent := by
  have hhead : path.toList.head? ≠ some '/' := fun hhead => h (List.mem_of_mem_head? hhead)
  rw [parentDir_of_notMem h, Address.parent, address, address, decide_eq_false hhead, steps_of_notMem h]
  split_ifs <;> rfl

/-- A path that ends in the name of what it leads to, with a directory before it where it starts from the
top. A path that makes no step has no such name. -/
def NamesEntry (path : String) : Prop :=
  (parentDir path = "" → (address path).absolute = false) ∧ (isStep (fileName path) = true ∨ steps path = [])

/-- The directory part of a path leads to where the path leads but for the last step, if only the path ends
in the name of what it leads to. -/
theorem address_parentDir_iff (path : String) :
    address (parentDir path) = (address path).parent ↔ NamesEntry path := by
  unfold NamesEntry
  by_cases hslash : '/' ∈ path.toList
  · by_cases hempty : parentDir path = ""
    · have habsolute : (address path).absolute = true := by
        rw [address, eq_parentDir_append hslash, hempty]
        simp
      have hne : address (parentDir path) ≠ (address path).parent := by
        intro h
        have hfalse := congrArg Address.absolute h
        rw [hempty, Address.parent, habsolute] at hfalse
        exact absurd hfalse (by decide)
      refine iff_of_false hne ?_
      rintro ⟨h, -⟩
      rw [h hempty] at habsolute
      cases habsolute
    · have hiff : address (parentDir path) = (address path).parent ↔
          steps (parentDir path) = (steps path).dropLast := by
        rw [Address.ext_iff, Address.parent, address, address, head?_parentDir hempty]
        exact and_iff_right rfl
      rw [hiff, and_iff_right fun h => absurd h hempty, steps_of_mem hslash,
        steps_of_notMem (slash_notMem_fileName path)]
      cases isStep (fileName path) with
      | true => simp
      | false =>
          simp only [Bool.false_eq_true, if_false, List.append_nil, false_or]
          constructor
          · intro h
            have hlength := congrArg List.length h
            rw [List.length_dropLast] at hlength
            exact List.length_eq_zero_iff.mp (by omega)
          · intro h
            rw [h]
            rfl
  · refine iff_of_true (address_parentDir_of_notMem hslash) ⟨fun _ => ?_, ?_⟩
    · exact decide_eq_false fun hhead => hslash (List.mem_of_mem_head? hhead)
    · rw [fileName_of_notMem hslash, steps_of_notMem hslash]
      cases isStep path
      · exact Or.inr rfl
      · exact Or.inl rfl

theorem IsOrdinary.namesEntry (h : IsOrdinary path) : NamesEntry path := by
  have hname : fileName path ∈ segments path := by
    by_cases hslash : '/' ∈ path.toList
    · rw [segments_of_mem hslash]
      exact List.mem_append_right _ List.mem_cons_self
    · rw [segments_of_notMem hslash, fileName_of_notMem hslash]
      exact List.mem_cons_self
  refine ⟨fun hempty => ?_, Or.inl ?_⟩
  · by_cases hslash : '/' ∈ path.toList
    · exact absurd hempty (h.parentDir_ne_empty hslash)
    · exact decide_eq_false fun hhead => hslash (List.mem_of_mem_head? hhead)
  · obtain ⟨hempty, hdot, -⟩ := h _ hname
    simp [isStep, hempty, hdot]

end AssetPipeline.Path
