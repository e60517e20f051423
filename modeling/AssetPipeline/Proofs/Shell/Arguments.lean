import AssetPipeline.Proofs.Ninja.Command
import AssetPipeline.Proofs.Shell.Words

/-! Words on their way to a program. They are quoted for the shell, joined by blanks, and then escaped for
the build file. The executor undoes its own escapes and the shell reads the words back one by one, because
no character that could mean more than itself is left outside quotes. -/

namespace AssetPipeline

namespace Ninja

variable {text read : List Char} {value? : String → Option String}

/-- A text with each pair of dollar signs read as one. It makes no sense with a dollar sign before anything
else. -/
def halveDollars? : List Char → Option (List Char)
  | [] => some []
  | ['$'] => none
  | '$' :: c :: text => if c = '$' then (halveDollars? text).map ('$' :: ·) else none
  | c :: text => (halveDollars? text).map (c :: ·)

theorem halveDollars?_char {c : Char} (hc : c ≠ '$') (text : List Char) :
    halveDollars? (c :: text) = (halveDollars? text).map (c :: ·) := by
  rw [halveDollars?]
  · exact fun h _ => hc h
  · exact fun _ _ h _ => hc h

theorem halveDollars?_escapeValue (value : String) :
    halveDollars? (escapeValue value).toList = some value.toList := by
  rw [escapeValue, String.toList_ofList]
  induction value.toList with
  | nil => rfl
  | cons c text ih =>
      rw [List.flatMap_cons]
      split_ifs with hc
      · rw [hc, List.cons_append, List.singleton_append, halveDollars?, if_pos rfl, ih]
        rfl
      · rw [List.singleton_append, halveDollars?_char hc, ih]
        rfl

/-- The executor reads pairs of dollar signs like that, whatever its variables stand for. -/
theorem expand?_of_halveDollars? (h : halveDollars? text = some read) :
    expand? value? text = some read := by
  induction text using halveDollars?.induct generalizing read with
  | case1 =>
      rw [expand?]
      exact h
  | case2 => cases h
  | case3 text ih =>
      rw [halveDollars?, if_pos rfl] at h
      obtain ⟨rest, hrest, rfl⟩ := Option.map_eq_some_iff.mp h
      rw [expand?_dollars, ih hrest]
      rfl
  | case4 c text hc =>
      rw [halveDollars?, if_neg hc] at h
      cases h
  | case5 c text hlone hpair ih =>
      have hc : c ≠ '$' := by
        intro hc
        cases text with
        | nil => exact hlone hc rfl
        | cons d text => exact hpair d text hc rfl
      rw [halveDollars?_char hc] at h
      obtain ⟨rest, hrest, rfl⟩ := Option.map_eq_some_iff.mp h
      rw [expand?_char hc, ih hrest]
      rfl

end Ninja

namespace Shell

variable {place next : Place} {c : Char} {read text rest : List Char}

/-! ### Characters outside quotes -/

/-- The characters that stand outside quotes and behind no backslash, the quotes and backslashes
themselves left out. Only these can mean more than themselves. -/
def bareFrom : Place → List Char → List Char
  | _, [] => []
  | place, c :: text =>
    match step? place c with
    | some (_, next) =>
      if place.isOpen || next.isOpen then bareFrom next text else c :: bareFrom next text
    | none => c :: text

def bare (command : String) : List Char :=
  bareFrom .between command.toList

/-- Characters that begin an expansion where they are bare: of parameters and commands, of patterns, of home
directories and of braces. -/
def beginsExpansion (c : Char) : Bool :=
  "$`*?[~\x7b".toList.contains c

theorem bareFrom_open (h : step? place c = some ([], next)) (hopen : (place.isOpen || next.isOpen) = true)
    (text : List Char) : bareFrom place (c :: text) = bareFrom next text := by
  rw [bareFrom, h]
  exact if_pos hopen

theorem bareFrom_plain {word : List Char} (hword : ∀ c ∈ word, isPlain c = true) :
    bareFrom (.word read) (word ++ rest) = word ++ bareFrom (.word (read ++ word)) rest := by
  induction word generalizing read with
  | nil => rw [List.nil_append, List.nil_append, List.append_nil]
  | cons c word ih =>
      rw [List.forall_mem_cons] at hword
      have hstep := step?_of_isPlain hword.1 (.inr ⟨read, rfl⟩)
      rw [List.cons_append, bareFrom, hstep, List.append_cons read c word]
      exact congrArg (c :: ·) (ih hword.2)

/-- Of a quoted word only plain characters are bare. -/
theorem exists_bareFrom_quote (word : String) (rest : List Char) :
    ∃ front, bareFrom .between ((quote word).toList ++ rest) = front ++ bareFrom (.word word.toList) rest ∧
      ∀ c ∈ front, isPlain c = true := by
  rw [quote]
  split_ifs with hplain
  · obtain ⟨hne, hall⟩ := hplain
    rw [List.all_eq_true] at hall
    refine ⟨word.toList, ?_, hall⟩
    cases hword : word.toList with
    | nil => exact absurd (String.toList_eq_nil_iff.mp hword) hne
    | cons c text =>
        rw [hword, List.forall_mem_cons] at hall
        have hstep : step? .between c = some ([], .word [c]) := step?_of_isPlain hall.1 (.inl rfl)
        rw [List.cons_append, bareFrom, hstep]
        exact congrArg (c :: ·) (bareFrom_plain hall.2)
  · refine ⟨[], ?_, List.forall_mem_nil _⟩
    have hopen : step? .between '\'' = some ([], .quoted []) := rfl
    rw [String.toList_ofList, List.cons_append, List.cons_append, List.append_assoc, bareFrom_open hopen rfl]
    exact through_escapeQuotes bareFrom_open [] word.toList rest

/-- Quoted words leave nothing bare but plain characters and the blanks between them. -/
theorem bare_join (words : List String) : ∀ c ∈ bare (join words), isPlain c = true ∨ c = ' ' := by
  rw [bare, join]
  induction words with
  | nil => exact List.forall_mem_nil _
  | cons word words ih =>
      cases words with
      | nil =>
          obtain ⟨front, hbare, hfront⟩ := exists_bareFrom_quote word []
          rw [List.append_nil, bareFrom, List.append_nil] at hbare
          rw [List.map_singleton, String.intercalate_singleton, hbare]
          exact fun c hc => .inl (hfront c hc)
      | cons next words =>
          obtain ⟨front, hbare, hfront⟩ :=
            exists_bareFrom_quote word (' ' :: (" ".intercalate ((next :: words).map quote)).toList)
          have hblank : step? (.word word.toList) ' ' = some ([word.toList], .between) := rfl
          have hchars : (" ".intercalate ((word :: next :: words).map quote)).toList =
              (quote word).toList ++ ' ' :: (" ".intercalate ((next :: words).map quote)).toList := by
            simp [String.intercalate_cons_cons]
          rw [hchars, hbare, bareFrom, hblank]
          intro c hc
          rcases List.mem_append.mp hc with hc | hc
          · exact .inl (hfront c hc)
          · rcases List.mem_cons.mp hc with rfl | hc
            · exact .inr rfl
            · exact ih c hc

theorem beginsExpansion_of_isPlain (hc : isPlain c = true) : beginsExpansion c = false := by
  have hplain : "$`*?[~\x7b".toList.any isPlain = false := by decide
  rw [← Bool.not_eq_true]
  intro hbegins
  rw [List.any_eq_false] at hplain
  exact hplain c (List.contains_iff_mem.mp hbegins) hc

/-- Words that are quoted, joined and escaped come back through the executor and the shell. The executor
meets no dollar sign but those of its pairs, the shell reads just these words, behind any command too, and
nothing is bare that would begin an expansion. -/
theorem join_delivered (args : List String) : ∃ text,
    Ninja.halveDollars? (Ninja.escapeValue (join args)).toList = some text ∧
      (∀ value?, Ninja.expand? value? (Ninja.escapeValue (join args)).toList = some text) ∧
      words? (String.ofList text) = some args ∧
      (∀ command words, words? command = some words →
        words? (command ++ " " ++ String.ofList text) = some (words ++ args)) ∧
      ∀ c ∈ bare (String.ofList text), beginsExpansion c = false := by
  have hread := Ninja.halveDollars?_escapeValue (join args)
  refine ⟨(join args).toList, hread, fun value? => Ninja.expand?_of_halveDollars? hread, ?_⟩
  rw [String.ofList_toList]
  refine ⟨words?_join args, fun command words hcommand => ?_, fun c hc => ?_⟩
  · rw [words?_append_blank hcommand, words?_join]
    rfl
  · rcases bare_join args c hc with hplain | rfl
    · exact beginsExpansion_of_isPlain hplain
    · decide

example : words? (join ["", "a b", "$HOME", "it's"]) = some ["", "a b", "$HOME", "it's"] := by
  decide +kernel

end Shell

end AssetPipeline
