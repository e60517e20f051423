import AssetPipeline.Proofs.Script.Pieces
import Mathlib.Data.List.TakeWhile

/-! Reading back a text that was put together token by token, and strings written with their quotes. A
token starts further into the source the more there is in front of it, so what is known of the tokens
of a text is known wherever the text stands. -/

namespace AssetPipeline.Script

/-- The tokens of a text that stands at byte `offset`, unless some of it is left. -/
def tokensAt? (offset : Nat) (text : List Char) : Option (List Token) :=
  match lexemes text with
  | (read, []) => some (placeTokens offset read)
  | (_, _ :: _) => none

theorem tokenize_eq_ok_iff {source : String} {tokens : List Token} :
    tokenize source = .ok tokens ↔ tokensAt? 0 source.toList = some tokens := by
  rw [tokenize, tokensAt?]
  generalize lexemes source.toList = read
  obtain ⟨read, left⟩ := read
  cases left <;> simp

/-- Wherever the text stands, it has tokens, and `P` holds for them. -/
def Scans (text : List Char) (P : List Token → Prop) : Prop :=
  ∀ offset, ∃ tokens, tokensAt? offset text = some tokens ∧ P tokens

/-- The first token was read from `text` as one of this kind, and `P` holds for the tokens behind it. -/
def Ahead (kind : TokenKind) (text : List Char) (P : List Token → Prop) (tokens : List Token) : Prop :=
  ∃ t tail, tokens = t :: tail ∧ t.kind = kind ∧ t.text = String.ofList text ∧ P tail

variable {front rest : List Char} {kind : TokenKind} {P Q : List Token → Prop}

theorem Scans.mono (h : Scans rest P) (hPQ : ∀ tokens, P tokens → Q tokens) : Scans rest Q := by
  intro offset
  obtain ⟨tokens, htokens, hP⟩ := h offset
  exact ⟨tokens, htokens, hPQ tokens hP⟩

/-- The lexeme that a text begins with is read first. -/
theorem lexemes_append {kind : LexemeKind}
    (h : Lexeme.measure? (front ++ rest) = some (kind, front.length)) :
    lexemes (front ++ rest) = (⟨kind, front⟩ :: (lexemes rest).1, (lexemes rest).2) := by
  rw [lexemes]
  split
  · rename_i hnone
    rw [h] at hnone
    cases hnone
  · rename_i kind' n hsome
    rw [h] at hsome
    cases hsome
    rw [List.drop_left, List.take_left]

theorem scans_nil (h : P []) : Scans [] P := by
  intro offset
  refine ⟨[], ?_, h⟩
  rw [tokensAt?, lexemes]
  rfl

theorem Scans.token (h : Scans rest P)
    (hfront : Lexeme.measure? (front ++ rest) = some (.token kind, front.length)) :
    Scans (front ++ rest) (Ahead kind front P) := by
  intro offset
  obtain ⟨tail, htail, hP⟩ := h (offset + byteLength front)
  refine ⟨⟨kind, String.ofList front, offset⟩ :: tail, ?_, _, _, rfl, rfl, rfl, hP⟩
  rw [tokensAt?] at htail ⊢
  rw [lexemes_append hfront]
  generalize lexemes rest = read at htail ⊢
  obtain ⟨read, left⟩ := read
  cases left with
  | nil =>
      cases htail
      rfl
  | cons c left => cases htail

/-! ### Punctuation, blanks and words -/

theorem Scans.punctuation {c : Char} (h : Scans rest P) (hc : Lexeme.punctuation? c = some kind) :
    Scans (c :: rest) (Ahead kind [c] P) := by
  have hfront : Lexeme.measure? ([c] ++ rest) = some (.token kind, 1) := by
    rw [Lexeme.measure?.eq_def, List.cons_append]
    simp only [hc]
  exact h.token hfront

theorem punctuation?_eq_none {c : Char} (h : Lexeme.isBlank c = true ∨ Lexeme.isNameStart c = true) :
    Lexeme.punctuation? c = none := by
  unfold Lexeme.punctuation?
  split
  case h_10 => rfl
  all_goals exact absurd h (by decide)

theorem isBlank_of_isNameStart {c : Char} (h : Lexeme.isNameStart c = true) :
    Lexeme.isBlank c = false := by
  rw [← Bool.not_eq_true]
  intro hblank
  simp only [Lexeme.isBlank, Bool.or_eq_true, decide_eq_true_eq] at hblank
  obtain (((rfl | rfl) | rfl) | rfl) | rfl := hblank
  all_goals exact absurd h (by decide)

theorem takeWhile_append_of_head {keep : Char → Bool} (hfront : ∀ c ∈ front, keep c = true)
    (hrest : ∀ c ∈ rest.head?, keep c = false) : (front ++ rest).takeWhile keep = front := by
  rw [List.takeWhile_append_of_pos hfront]
  cases rest with
  | nil => rw [List.takeWhile_nil, List.append_nil]
  | cons c rest =>
      rw [List.takeWhile_cons_of_neg (by rw [hrest c rfl]; decide), List.append_nil]

theorem tokensAt?_blanks (offset : Nat) (hfront : ∀ c ∈ front, Lexeme.isBlank c = true)
    (hrest : ∀ c ∈ rest.head?, Lexeme.isBlank c = false) :
    tokensAt? offset (front ++ rest) = tokensAt? (offset + byteLength front) rest := by
  cases front with
  | nil => rfl
  | cons c front =>
      rw [List.forall_mem_cons] at hfront
      have hmeasure : Lexeme.measure? (c :: front ++ rest) = some (.blank, (c :: front).length) := by
        rw [Lexeme.measure?.eq_def, List.cons_append]
        simp only [punctuation?_eq_none (Or.inl hfront.1), if_pos hfront.1,
          takeWhile_append_of_head hfront.2 hrest]
        rfl
      rw [tokensAt?, tokensAt?, lexemes_append hmeasure]
      generalize lexemes rest = read
      obtain ⟨read, left⟩ := read
      cases left <;> rfl

/-- A blank moves the tokens behind it and adds none, also where more blanks follow it. -/
theorem tokensAt?_blank (offset : Nat) {c : Char} (hc : Lexeme.isBlank c = true) (rest : List Char) :
    tokensAt? offset (c :: rest) = tokensAt? (offset + byteLength [c]) rest := by
  have hmore : ∀ d ∈ rest.takeWhile Lexeme.isBlank, Lexeme.isBlank d = true :=
    fun d hd => List.mem_takeWhile_imp hd
  have hend : ∀ d ∈ (rest.dropWhile Lexeme.isBlank).head?, Lexeme.isBlank d = false := by
    intro d hd
    have hnot := List.head?_dropWhile_not Lexeme.isBlank rest
    rw [Option.mem_def.mp hd] at hnot
    exact hnot
  rw [← List.takeWhile_append_dropWhile (p := Lexeme.isBlank) (l := rest), ← List.cons_append,
    tokensAt?_blanks offset (List.forall_mem_cons.mpr ⟨hc, hmore⟩) hend,
    tokensAt?_blanks (offset + byteLength [c]) hmore hend, byteLength_cons, byteLength_cons,
    byteLength_nil, Nat.add_zero, Nat.add_assoc]

theorem Scans.blank {c : Char} (h : Scans rest P) (hc : Lexeme.isBlank c = true) :
    Scans (c :: rest) P := by
  intro offset
  rw [tokensAt?_blank offset hc]
  exact h (offset + byteLength [c])

theorem Scans.blanks (h : Scans rest P) (hfront : front.all Lexeme.isBlank = true) :
    Scans (front ++ rest) P := by
  induction front with
  | nil => exact h
  | cons c front ih =>
      rw [List.all_cons, Bool.and_eq_true] at hfront
      exact (ih hfront.2).blank hfront.1

/-- Text that is read as one word: a name or a word that is reserved. -/
def isWord : List Char → Bool
  | [] => false
  | c :: word => Lexeme.isNameStart c && word.all Lexeme.isNamePart

theorem head_notNamePart {c : Char} (hc : Lexeme.isNamePart c = false) (rest : List Char) :
    ∀ d ∈ (c :: rest).head?, Lexeme.isNamePart d = false := by
  intro d hd
  cases hd
  exact hc

theorem Scans.word (h : Scans rest P) (word : List Char) (hword : isWord word = true)
    (hrest : ∀ c ∈ rest.head?, Lexeme.isNamePart c = false) :
    Scans (word ++ rest) (Ahead (Lexeme.wordKind word) word P) := by
  cases word with
  | nil => cases hword
  | cons c word =>
      rw [isWord, Bool.and_eq_true, List.all_eq_true] at hword
      obtain ⟨hc, hword⟩ := hword
      refine h.token ?_
      rw [Lexeme.measure?.eq_def, List.cons_append]
      simp only [punctuation?_eq_none (Or.inr hc), isBlank_of_isNameStart hc, Bool.false_eq_true,
        if_false, if_pos hc, takeWhile_append_of_head hword hrest]

/-! ### Quoted strings -/

/-- A character as it stands between single quotes. -/
def escapeChar (c : Char) : List Char :=
  match c with
  | '\\' => ['\\', '\\']
  | '\'' => ['\\', '\'']
  | '\n' => ['\\', 'n']
  | c => [c]

def escape (text : List Char) : List Char :=
  text.flatMap escapeChar

/-- A string between single quotes, with the characters escaped that would end it. -/
def quoted (text : String) : String :=
  "'" ++ String.ofList (escape text.toList) ++ "'"

theorem escapeChar_eq (c : Char) : escapeChar c = Literal.writeChar '\'' c := by
  unfold escapeChar
  split
  case h_4 hslash hquote hfeed => rw [Literal.writeChar, if_neg (not_or.mpr ⟨hslash, hquote⟩), if_neg hfeed]
  all_goals rfl

theorem escape_eq_flatMap (text : List Char) :
    escape text = (text.map (Literal.Piece.ofChar '\'')).flatMap Literal.Piece.text := by
  rw [Literal.flatMap_ofChar, escape, funext escapeChar_eq]

theorem quotedLength?_escape (text rest : List Char) :
    Lexeme.quotedLength? '\'' (escape text ++ '\'' :: rest) = some ((escape text).length + 1) := by
  rw [escape_eq_flatMap]
  exact Literal.quotedLength?_flatMap (by decide) (Literal.fits_of_mem_map_ofChar (Or.inr rfl) text) rest

theorem decode_escape (text : List Char) : Literal.decode (escape text) = text := by
  rw [escape_eq_flatMap, Literal.decode_flatMap, Literal.map_value_ofChar (Or.inr rfl)]

theorem toList_quoted (text : String) :
    (quoted text).toList = '\'' :: (escape text.toList ++ ['\'']) := by
  simp [quoted]

/-- A string is what its quoted form stands for. -/
theorem unquote_quoted (text : String) : Literal.unquote (quoted text) = text := by
  rw [Literal.unquote, toList_quoted, List.drop_one, List.tail_cons, List.dropLast_concat,
    decode_escape, String.ofList_toList]

theorem Scans.literal (h : Scans rest P) (text : String) :
    Scans ((quoted text).toList ++ rest) (Ahead .text (quoted text).toList P) := by
  refine h.token ?_
  rw [toList_quoted, List.cons_append, List.append_assoc, List.singleton_append,
    Lexeme.measure?.eq_def]
  simp [Lexeme.punctuation?, Lexeme.isBlank, Lexeme.isNameStart, quotedLength?_escape]

end AssetPipeline.Script
