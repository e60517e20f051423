import AssetPipeline.Shell
import Mathlib.Tactic.SplitIfs

/-! The words of a command as a shell reads them: cut at blanks, with their quotes removed. A word that
was quoted is read back as it was, whatever it holds, and words one after another are read one after
another. -/

namespace AssetPipeline.Shell

/-- Where a reader of words stands, with what it has read of the word that it is in. -/
inductive Place where
  | between
  | word (read : List Char)
  /-- Behind a single quote that is still open. -/
  | quoted (read : List Char)
  /-- Behind a backslash. -/
  | escaped (read : List Char)

namespace Place

def read : Place → List Char
  | between => []
  | word read | quoted read | escaped read => read

/-- What comes next is quoted or escaped. -/
def isOpen : Place → Bool
  | quoted _ | escaped _ => true
  | _ => false

/-- The word that a blank or the end of the command ends. -/
def ended : Place → List (List Char)
  | word read => [read]
  | _ => []

end Place

/-- Characters that mean more to a shell than themselves where they are not quoted: operators,
expansions, patterns, comments and line breaks. -/
def isSpecial (c : Char) : Bool :=
  "|&;<>()$`\"*?[]#~\n".toList.contains c

/-- The word that ends with a character, if one does, and the place behind it. There is none where the
character asks for more than splitting and quoting. -/
def step? (place : Place) (c : Char) : Option (List (List Char) × Place) :=
  match place with
  | .quoted read => some ([], if c = '\'' then .word read else .quoted (read ++ [c]))
  | .escaped read => if c = '\n' then none else some ([], .word (read ++ [c]))
  | place =>
    if c = ' ' ∨ c = '\t' then some (place.ended, .between)
    else if c = '\'' then some ([], .quoted place.read)
    else if c = '\\' then some ([], .escaped place.read)
    else if isSpecial c then none
    else some ([], .word (place.read ++ [c]))

/-- The words from a place to the end of the command. -/
def readFrom? : Place → List Char → Option (List (List Char))
  | .quoted _, [] => none
  | .escaped _, [] => none
  | place, [] => some place.ended
  | place, c :: text =>
    (step? place c).bind fun (words, next) => (readFrom? next text).map (words ++ ·)

/-- The words of a command, if it is made of nothing but words. -/
def words? (command : String) : Option (List String) :=
  (readFrom? .between command.toList).map (List.map String.ofList)

variable {place next : Place} {c : Char} {read text rest : List Char} {words : List (List Char)}

theorem readFrom?_cons (h : step? place c = some (words, next)) :
    readFrom? place (c :: text) = (readFrom? next text).map (words ++ ·) := by
  rw [readFrom?, h]
  rfl

/-- A character that ends no word only leads on. -/
theorem readFrom?_step (h : step? place c = some ([], next)) :
    readFrom? place (c :: text) = readFrom? next text := by
  rw [readFrom?_cons h]
  exact Option.map_id'

/-- Words that end with a command are read before a blank as well, and others behind it. -/
theorem readFrom?_append_blank (h : readFrom? place text = some words) (rest : List Char) :
    readFrom? place (text ++ ' ' :: rest) = (readFrom? .between rest).map (words ++ ·) := by
  induction text generalizing place words with
  | nil =>
      cases place with
      | between =>
          cases h
          have hblank : step? .between ' ' = some ([], .between) := rfl
          rw [List.nil_append, readFrom?_cons hblank]
          rfl
      | word read =>
          cases h
          have hblank : step? (.word read) ' ' = some ([read], .between) := rfl
          rw [List.nil_append, readFrom?_cons hblank]
          rfl
      | quoted read => cases h
      | escaped read => cases h
  | cons c text ih =>
      rw [readFrom?] at h
      obtain ⟨⟨first, next⟩, hstep, h⟩ := Option.bind_eq_some_iff.mp h
      obtain ⟨later, hlater, rfl⟩ := Option.map_eq_some_iff.mp h
      rw [List.cons_append, readFrom?_cons hstep, ih hlater, Option.map_map]
      congr 1
      funext others
      exact (List.append_assoc first later others).symm

/-- Whatever is followed through quotes without a trace is the same before the quoted form of a word and
behind it. -/
theorem through_escapeQuotes {α : Type} {f : Place → List Char → α}
    (hf : ∀ {place c next}, step? place c = some ([], next) → (place.isOpen || next.isOpen) = true →
      ∀ text, f place (c :: text) = f next text) (read word rest : List Char) :
    f (.quoted read) (escapeQuotes word ++ '\'' :: rest) = f (.word (read ++ word)) rest := by
  have hclose : ∀ read text, f (.quoted read) ('\'' :: text) = f (.word read) text := fun _ => hf rfl rfl
  induction word generalizing read with
  | nil => rw [escapeQuotes, List.nil_append, hclose, List.append_nil]
  | cons c word ih =>
      rw [escapeQuotes, List.append_cons read c word]
      split_ifs with hc
      · -- The quote is left, then escaped, and then the next quote is opened.
        have hbackslash : step? (.word read) '\\' = some ([], .escaped read) := rfl
        have hquote : step? (.escaped read) '\'' = some ([], .word (read ++ ['\''])) := rfl
        have hopen : step? (.word (read ++ ['\''])) '\'' = some ([], .quoted (read ++ ['\''])) := rfl
        rw [hc, List.cons_append, List.cons_append, List.cons_append, List.cons_append, hclose,
          hf hbackslash rfl, hf hquote rfl, hf hopen rfl, ih]
      · have hstep : step? (.quoted read) c = some ([], .quoted (read ++ [c])) := by
          rw [step?, if_neg hc]
        rw [List.cons_append, hf hstep rfl, ih]

theorem readFrom?_escapeQuotes (word : List Char) :
    readFrom? (.quoted read) (escapeQuotes word ++ '\'' :: rest) = readFrom? (.word (read ++ word)) rest :=
  through_escapeQuotes (fun hstep _ _ => readFrom?_step hstep) read word rest

theorem isSpecial_of_isPlain (hc : isPlain c = true) : isSpecial c = false := by
  have hplain : "|&;<>()$`\"*?[]#~\n".toList.any isPlain = false := by decide
  rw [← Bool.not_eq_true]
  intro hspecial
  rw [List.any_eq_false] at hplain
  exact hplain c (List.contains_iff_mem.mp hspecial) hc

theorem step?_of_isPlain (hc : isPlain c = true) (hplace : place = .between ∨ ∃ read, place = .word read) :
    step? place c = some ([], .word (place.read ++ [c])) := by
  have hne : ∀ d, isPlain d = false → c ≠ d := by
    rintro d hd rfl
    rw [hd] at hc
    cases hc
  have hblank : ¬ (c = ' ' ∨ c = '\t') :=
    not_or.mpr ⟨hne ' ' (by decide), hne '\t' (by decide)⟩
  have hspecial : ¬ isSpecial c = true := by
    rw [isSpecial_of_isPlain hc]
    exact Bool.false_ne_true
  rcases hplace with rfl | ⟨read, rfl⟩ <;>
    rw [step?, if_neg hblank, if_neg (hne '\'' (by decide)), if_neg (hne '\\' (by decide)),
      if_neg hspecial] <;> simp

theorem readFrom?_plain {word : List Char} (hword : ∀ c ∈ word, isPlain c = true) :
    readFrom? (.word read) (word ++ rest) = readFrom? (.word (read ++ word)) rest := by
  induction word generalizing read with
  | nil => rw [List.nil_append, List.append_nil]
  | cons c word ih =>
      rw [List.forall_mem_cons] at hword
      rw [List.cons_append, readFrom?_step (step?_of_isPlain hword.1 (Or.inr ⟨read, rfl⟩)), ih hword.2,
        List.append_cons read c word]
      rfl

/-- Whatever a word holds, a shell reads it back from its quoted form. -/
theorem words?_quote (word : String) : words? (quote word) = some [word] := by
  have hread : readFrom? .between (quote word).toList = some [word.toList] := by
    rw [quote]
    split_ifs with hplain
    · obtain ⟨hne, hall⟩ := hplain
      rw [List.all_eq_true] at hall
      cases hword : word.toList with
      | nil => exact absurd (String.toList_eq_nil_iff.mp hword) hne
      | cons c text =>
          rw [hword, List.forall_mem_cons] at hall
          have hfirst : step? .between c = some ([], .word [c]) := step?_of_isPlain hall.1 (Or.inl rfl)
          have hrest : readFrom? (.word [c]) (text ++ []) = readFrom? (.word ([c] ++ text)) [] :=
            readFrom?_plain hall.2
          rw [List.append_nil] at hrest
          rw [readFrom?_step hfirst]
          exact hrest
    · have hopen : step? .between '\'' = some ([], .quoted []) := rfl
      rw [String.toList_ofList, List.cons_append, readFrom?_step hopen, readFrom?_escapeQuotes]
      rfl
  rw [words?, hread, Option.map_some, List.map_singleton, String.ofList_toList]

theorem words?_append_blank {a b : String} {words : List String} (h : words? a = some words) :
    words? (a ++ " " ++ b) = (words? b).map (words ++ ·) := by
  obtain ⟨read, hread, rfl⟩ := Option.map_eq_some_iff.mp h
  have htext : (a ++ " " ++ b).toList = a.toList ++ ' ' :: b.toList := by simp
  rw [words?, words?, htext, readFrom?_append_blank hread, Option.map_map, Option.map_map]
  congr 1
  funext others
  exact List.map_append

theorem words?_join (words : List String) : words? (join words) = some words := by
  rw [join]
  induction words with
  | nil => rfl
  | cons word words ih =>
      cases words with
      | nil => exact words?_quote word
      | cons next words =>
          rw [List.map_cons] at ih
          rw [List.map_cons, List.map_cons, String.intercalate_cons_cons,
            words?_append_blank (words?_quote word), ih]
          rfl

end AssetPipeline.Shell
