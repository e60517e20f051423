import AssetPipeline.Script.Fault

/-! Lexemes of a description: its tokens, and the blanks and comments between them. At every place
the longest lexeme is taken; a word that is reserved is no name. -/

namespace AssetPipeline.Script

inductive LexemeKind where
  | token (kind : TokenKind)
  | blank
  | lineComment
  | blockComment
  deriving DecidableEq, Repr

structure Lexeme where
  kind : LexemeKind
  text : List Char
  deriving DecidableEq, Repr

namespace Lexeme

def isBlank (c : Char) : Bool :=
  c = ' ' || c = '\t' || c = '\r' || c = '\n' || c = '\x0c'

def isNameStart (c : Char) : Bool :=
  c.isAlpha || c = '_' || c = '$'

def isNamePart (c : Char) : Bool :=
  isNameStart c || c.isDigit

def punctuation? (c : Char) : Option TokenKind :=
  match c with
  | '(' => some .parenOpen
  | ')' => some .parenClose
  | '[' => some .bracketOpen
  | ']' => some .bracketClose
  | ',' => some .comma
  | '.' => some .dot
  | ';' => some .semicolon
  | '=' => some .equals
  | '+' => some .plus
  | _ => none

/-- What a word stands for; a word that is not reserved is a name. -/
def wordKind (word : List Char) : TokenKind :=
  if word = "var".toList ∨ word = "let".toList ∨ word = "const".toList then .declare
  else if word = "true".toList then .yes
  else if word = "false".toList then .no
  else .name

/-- Length of a number: digits, and a fraction if a digit follows the point. -/
def numberLength (text : List Char) : Nat :=
  let whole := (text.takeWhile Char.isDigit).length
  match text.drop whole with
  | '.' :: fraction =>
    match (fraction.takeWhile Char.isDigit).length with
    | 0 => whole
    | digits + 1 => whole + 1 + (digits + 1)
  | _ => whole

/-- Length of what follows an opening quote up to its closing quote, which counts. A backslash takes
the next character with it; neither alone nor after a backslash may a line feed stand inside. -/
def quotedLength? (quote : Char) : List Char → Option Nat
  | [] => none
  | '\\' :: c :: text => if c = '\n' then none else (quotedLength? quote text).map (· + 2)
  | c :: text =>
    if c = quote then some 1
    else if c = '\n' ∨ c = '\\' then none
    else (quotedLength? quote text).map (· + 1)

/-- Length of what follows the opening of a block comment up to its first closing, which counts. -/
def commentLength? : List Char → Option Nat
  | [] => none
  | '*' :: '/' :: _ => some 2
  | _ :: text => (commentLength? text).map (· + 1)

/-- Kind and length of the lexeme that `text` begins with. -/
def measure? (text : List Char) : Option (LexemeKind × Nat) :=
  match text with
  | [] => none
  | c :: rest =>
    if let some kind := punctuation? c then some (.token kind, 1)
    else if isBlank c then some (.blank, (rest.takeWhile isBlank).length + 1)
    else if isNameStart c then
      let word := c :: rest.takeWhile isNamePart
      some (.token (wordKind word), word.length)
    else if c.isDigit then some (.token .number, numberLength text)
    else if c = '"' ∨ c = '\'' then (quotedLength? c rest).map fun n => (.token .text, n + 1)
    else if c = '/' then
      match rest with
      | '/' :: line => some (.lineComment, (line.takeWhile (· ≠ '\n')).length + 2)
      | '*' :: body => (commentLength? body).map fun n => (.blockComment, n + 2)
      | _ => none
    else none

theorem numberLength_pos {c : Char} {rest : List Char} (h : c.isDigit) :
    0 < numberLength (c :: rest) := by
  have hwhole : 0 < ((c :: rest).takeWhile Char.isDigit).length := by
    simp [h]
  simp only [numberLength]
  split
  · split <;> omega
  · exact hwhole

/-- Every lexeme holds at least one character. -/
theorem measure?_pos {text : List Char} {kind : LexemeKind} {n : Nat}
    (h : measure? text = some (kind, n)) : 0 < n := by
  unfold measure? at h
  split at h
  · simp at h
  · split at h
    · simp only [Option.some.injEq, Prod.mk.injEq] at h
      omega
    · split at h
      · simp only [Option.some.injEq, Prod.mk.injEq] at h
        omega
      · split at h
        · simp only [Option.some.injEq, Prod.mk.injEq, List.length_cons] at h
          omega
        · split at h
          · rename_i hdigit
            simp only [Option.some.injEq, Prod.mk.injEq] at h
            exact h.2 ▸ numberLength_pos hdigit
          · split at h
            · simp only [Option.map_eq_some_iff, Prod.mk.injEq] at h
              obtain ⟨_, _, _, h⟩ := h
              omega
            · split at h
              · split at h
                · simp only [Option.some.injEq, Prod.mk.injEq] at h
                  omega
                · simp only [Option.map_eq_some_iff, Prod.mk.injEq] at h
                  obtain ⟨_, _, _, h⟩ := h
                  omega
                · simp at h
              · simp at h

end Lexeme

/-- The lexemes of a text one after another, and what is left where no lexeme begins. -/
def lexemes (text : List Char) : List Lexeme × List Char :=
  match _h : Lexeme.measure? text with
  | none => ([], text)
  | some (kind, n) =>
    let (following, rest) := lexemes (text.drop n)
    (⟨kind, text.take n⟩ :: following, rest)
termination_by text.length
decreasing_by
  have hpos := Lexeme.measure?_pos _h
  have hne : text ≠ [] := by
    rintro rfl
    simp [Lexeme.measure?] at _h
  have := List.length_pos_iff.2 hne
  simp only [List.length_drop]
  omega

/-- Nothing of a text is lost between its lexemes and what is left. -/
theorem flatMap_lexemes_append (text : List Char) :
    (lexemes text).1.flatMap (·.text) ++ (lexemes text).2 = text := by
  fun_induction lexemes text with
  | case1 text h => simp
  | case2 text kind n h following rest heq ih =>
    rw [heq] at ih
    rw [List.flatMap_cons, List.append_assoc, ih, List.take_append_drop]

/-- Number of bytes of a character list in UTF-8. -/
def byteLength : List Char → Nat
  | [] => 0
  | c :: text => c.utf8Size + byteLength text

@[simp] theorem byteLength_nil : byteLength [] = 0 := rfl

@[simp] theorem byteLength_cons (c : Char) (text : List Char) :
    byteLength (c :: text) = c.utf8Size + byteLength text := rfl

@[simp] theorem byteLength_append (front back : List Char) :
    byteLength (front ++ back) = byteLength front + byteLength back := by
  induction front with
  | nil => simp
  | cons c front ih =>
    rw [List.cons_append, byteLength_cons, ih, byteLength_cons, Nat.add_assoc]

/-- The tokens among lexemes of which the first stands at byte `offset`. -/
def placeTokens (offset : Nat) : List Lexeme → List Token
  | [] => []
  | ⟨.token kind, text⟩ :: rest =>
    ⟨kind, String.ofList text, offset⟩ :: placeTokens (offset + byteLength text) rest
  | ⟨_, text⟩ :: rest => placeTokens (offset + byteLength text) rest

/-- What is wrong where no lexeme begins, at `c` followed by `rest`. -/
def Problem.ofUnreadable (c : Char) (rest : List Char) : Problem :=
  if c = '"' ∨ c = '\'' then .unterminatedString
  else if c = '/' ∧ rest.head? = some '*' then .unterminatedComment
  else .unexpectedCharacter c

/-- The tokens of a source. It fails at the first place where no lexeme begins. -/
def tokenize (source : String) : Except Fault (List Token) :=
  match lexemes source.toList with
  | (read, []) => .ok (placeTokens 0 read)
  | (read, c :: rest) =>
    .error ⟨byteLength (read.flatMap (·.text)), .ofUnreadable c rest⟩

end AssetPipeline.Script
