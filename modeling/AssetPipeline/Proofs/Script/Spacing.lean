import AssetPipeline.Proofs.Script.Scanning
import Mathlib.Data.List.Forall2
import Mathlib.Data.String.Basic

/-! Tokens of a source, one behind the other. What is read as a token is read as the same token wherever
nothing or a blank stands behind it, so the texts of a source's tokens make a source again. -/

namespace AssetPipeline.Script

namespace Lexeme

/-- Nothing is left, or it begins with a blank. -/
def Apart (rest : List Char) : Prop :=
  ∀ c ∈ rest.head?, isBlank c = true

theorem apart_nil : Apart [] := by
  intro c hc
  cases hc

theorem apart_cons {c : Char} (hc : isBlank c = true) (rest : List Char) : Apart (c :: rest) := by
  intro d hd
  cases hd
  exact hc

variable {c : Char} {text rest : List Char} {kind : TokenKind} {n : Nat}

theorem isNamePart_of_isBlank (h : isBlank c = true) : isNamePart c = false := by
  simp only [isBlank, Bool.or_eq_true, decide_eq_true_eq] at h
  obtain (((rfl | rfl) | rfl) | rfl) | rfl := h <;> decide

theorem isDigit_of_isBlank (h : isBlank c = true) : c.isDigit = false := by
  have hpart := isNamePart_of_isBlank h
  rw [isNamePart, Bool.or_eq_false_iff] at hpart
  exact hpart.2

theorem punctuation?_of_isDigit (h : c.isDigit = true) : punctuation? c = none := by
  unfold punctuation?
  split
  case h_10 => rfl
  all_goals exact absurd h (by decide)

theorem isNameStart_of_isDigit (h : c.isDigit = true) : isNameStart c = false := by
  have hnine : c.val ≤ '9'.val := of_decide_eq_true (Bool.and_eq_true_iff.mp h).2
  rw [← Bool.not_eq_true]
  intro hstart
  simp only [isNameStart, Bool.or_eq_true, decide_eq_true_eq] at hstart
  obtain (halpha | rfl) | rfl := hstart
  · rcases Bool.or_eq_true_iff.mp halpha with hupper | hlower
    · have hle : 'A'.val ≤ c.val := (of_decide_eq_true hupper).1
      exact absurd (UInt32.le_trans hle hnine) (by decide)
    · have hle : 'a'.val ≤ c.val := of_decide_eq_true (Bool.and_eq_true_iff.mp hlower).1
      exact absurd (UInt32.le_trans hle hnine) (by decide)
  · exact absurd h (by decide)
  · exact absurd h (by decide)

/-! ### The kinds of tokens -/

theorem measure?_punctuation (hc : punctuation? c = some kind) :
    measure? (c :: rest) = some (.token kind, 1) := by
  rw [measure?.eq_def]
  simp only [hc]

theorem measure?_word (hc : isNameStart c = true) :
    measure? (c :: rest) = some (.token (wordKind (c :: rest.takeWhile isNamePart)),
      (c :: rest.takeWhile isNamePart).length) := by
  rw [measure?.eq_def]
  simp only [punctuation?_eq_none (Or.inr hc), isBlank_of_isNameStart hc, Bool.false_eq_true,
    if_false, if_pos hc]

theorem measure?_number (hc : c.isDigit = true) :
    measure? (c :: rest) = some (.token .number, numberLength (c :: rest)) := by
  have hblank : isBlank c = false := by
    rw [← Bool.not_eq_true]
    exact fun h => absurd (isDigit_of_isBlank h) (by rw [hc]; decide)
  rw [measure?.eq_def]
  simp only [punctuation?_of_isDigit hc, hblank, isNameStart_of_isDigit hc, Bool.false_eq_true,
    if_false, if_pos hc]

theorem measure?_quoted (hc : c = '"' ∨ c = '\'') :
    measure? (c :: rest) = (quotedLength? c rest).map fun n => (.token .text, n + 1) := by
  rcases hc with rfl | rfl <;> rw [measure?.eq_def] <;> rfl

/-- What a token can begin with. -/
theorem measure?_token_cases (h : measure? (c :: rest) = some (.token kind, n)) :
    punctuation? c = some kind ∨ isNameStart c = true ∨ c.isDigit = true ∨ c = '"' ∨ c = '\'' := by
  rw [measure?.eq_def] at h
  dsimp only at h
  split at h
  · cases h
    left
    assumption
  · split_ifs at h with hblank hname hdigit hquote hslash
    · cases h
    · exact Or.inr (Or.inl hname)
    · exact Or.inr (Or.inr (Or.inl hdigit))
    · exact Or.inr (Or.inr (Or.inr hquote))
    · split at h
      · cases h
      · rw [Option.map_eq_some_iff] at h
        obtain ⟨_, _, h⟩ := h
        cases h
      · cases h

/-! ### Where a token ends -/

theorem isDigit_of_apart (h : Apart rest) : ∀ c ∈ rest.head?, c.isDigit = false :=
  fun c hc => isDigit_of_isBlank (h c hc)

theorem isNamePart_of_apart (h : Apart rest) : ∀ c ∈ rest.head?, isNamePart c = false :=
  fun c hc => isNamePart_of_isBlank (h c hc)

/-- A text is what `keep` holds for and the rest, which begins with something else. -/
theorem exists_takeWhile (keep : Char → Bool) (text : List Char) :
    ∃ front tail, text = front ++ tail ∧ (∀ c ∈ front, keep c = true) ∧
      ∀ c ∈ tail.head?, keep c = false := by
  refine ⟨text.takeWhile keep, text.dropWhile keep, List.takeWhile_append_dropWhile.symm,
    fun c hc => List.mem_takeWhile_imp hc, fun c hc => ?_⟩
  have hnot := List.head?_dropWhile_not keep text
  rw [Option.mem_def.mp hc] at hnot
  exact hnot

section Number

variable {whole digits tail : List Char}

theorem numberLength_whole (hwhole : ∀ c ∈ whole, c.isDigit = true)
    (htail : ∀ c ∈ tail.head?, c.isDigit = false)
    (hfraction : ∀ fraction, tail = '.' :: fraction → fraction.takeWhile Char.isDigit = []) :
    numberLength (whole ++ tail) = whole.length := by
  rw [numberLength, takeWhile_append_of_head hwhole htail, List.drop_left]
  split
  · rw [hfraction _ rfl]
    rfl
  · rfl

theorem numberLength_fraction (hwhole : ∀ c ∈ whole, c.isDigit = true)
    (hdigits : ∀ c ∈ digits, c.isDigit = true) (hsome : digits ≠ [])
    (htail : ∀ c ∈ tail.head?, c.isDigit = false) :
    numberLength (whole ++ '.' :: (digits ++ tail)) = (whole ++ '.' :: digits).length := by
  have hpoint : ∀ c ∈ ('.' :: (digits ++ tail)).head?, c.isDigit = false := by
    intro c hc
    cases hc
    decide
  have hpos := List.length_pos_iff.mpr hsome
  rw [numberLength, takeWhile_append_of_head hwhole hpoint, List.drop_left]
  split
  · rename_i fraction heq
    cases heq
    rw [takeWhile_append_of_head hdigits htail, List.length_append, List.length_cons]
    split <;> omega
  · rename_i hno
    exact absurd rfl (hno (digits ++ tail))

end Number

theorem exists_number (text : List Char) :
    ∃ front tail, text = front ++ tail ∧ numberLength text = front.length ∧
      ∀ rest, Apart rest → numberLength (front ++ rest) = front.length := by
  obtain ⟨whole, behind, rfl, hwhole, hbehind⟩ := exists_takeWhile Char.isDigit text
  by_cases hfraction : ∀ fraction, behind = '.' :: fraction → fraction.takeWhile Char.isDigit = []
  · refine ⟨whole, behind, rfl, numberLength_whole hwhole hbehind hfraction, fun rest hrest => ?_⟩
    refine numberLength_whole hwhole (isDigit_of_apart hrest) fun fraction hpoint => ?_
    rw [hpoint] at hrest
    exact absurd (hrest '.' rfl) (by decide)
  · simp only [not_forall] at hfraction
    obtain ⟨fraction, rfl, hsome⟩ := hfraction
    obtain ⟨digits, tail, rfl, hdigits, htail⟩ := exists_takeWhile Char.isDigit fraction
    rw [takeWhile_append_of_head hdigits htail] at hsome
    refine ⟨whole ++ '.' :: digits, tail, by simp, numberLength_fraction hwhole hdigits hsome htail,
      fun rest hrest => ?_⟩
    rw [List.append_assoc, List.cons_append]
    exact numberLength_fraction hwhole hdigits hsome (isDigit_of_apart hrest)

theorem exists_quoted {quote : Char} (hquote : quote ≠ '\\') {text : List Char} {n : Nat}
    (h : quotedLength? quote text = some n) :
    ∃ front tail, text = front ++ tail ∧ front.length = n ∧
      ∀ rest, quotedLength? quote (front ++ rest) = some n := by
  obtain ⟨pieces, tail, hfits, rfl, rfl⟩ := Literal.exists_pieces h
  refine ⟨pieces.flatMap Literal.Piece.text ++ [quote], tail, by simp, by simp, fun rest => ?_⟩
  rw [List.append_assoc, List.singleton_append]
  exact Literal.quotedLength?_flatMap hquote hfits rest

/-- The text is read as a token of this kind where something apart stands behind it. -/
def Stands (kind : TokenKind) (front : List Char) : Prop :=
  ∀ rest, Apart rest → measure? (front ++ rest) = some (.token kind, front.length)

/-- What is read as a token would be so without what stands behind it. -/
theorem exists_stands (h : measure? text = some (.token kind, n)) :
    ∃ front tail, text = front ++ tail ∧ front.length = n ∧ Stands kind front := by
  cases text with
  | nil => cases h
  | cons c text =>
      rcases measure?_token_cases h with hpunctuation | hstart | hdigit | hquote
      · rw [measure?_punctuation hpunctuation] at h
        cases h
        exact ⟨[c], text, rfl, rfl, fun rest _ => measure?_punctuation hpunctuation⟩
      · obtain ⟨word, tail, rfl, hword, htail⟩ := exists_takeWhile isNamePart text
        rw [measure?_word hstart, takeWhile_append_of_head hword htail] at h
        cases h
        refine ⟨c :: word, tail, rfl, rfl, fun rest hrest => ?_⟩
        rw [List.cons_append, measure?_word hstart,
          takeWhile_append_of_head hword (isNamePart_of_apart hrest)]
      · rw [measure?_number hdigit] at h
        cases h
        obtain ⟨front, tail, htext, hlength, hreread⟩ := exists_number (c :: text)
        refine ⟨front, tail, htext, hlength.symm, fun rest hrest => ?_⟩
        have hpos : 0 < numberLength (c :: text) := numberLength_pos hdigit
        rw [hlength] at hpos
        obtain ⟨c', front, rfl⟩ := List.exists_cons_of_length_pos hpos
        cases htext
        rw [List.cons_append, measure?_number hdigit, ← List.cons_append, hreread rest hrest]
      · rw [measure?_quoted hquote] at h
        obtain ⟨m, hm, hn⟩ := Option.map_eq_some_iff.mp h
        cases hn
        have hslash : c ≠ '\\' := by
          rcases hquote with rfl | rfl <;> decide
        obtain ⟨front, tail, rfl, rfl, hreread⟩ := exists_quoted hslash hm
        refine ⟨c :: front, tail, rfl, rfl, fun rest _ => ?_⟩
        rw [List.cons_append, measure?_quoted hquote, hreread rest]
        rfl

end Lexeme

/-! ### Tokens in their places -/

/-- The token is in the text at the byte where it is said to start. -/
def Token.StandsIn (text : List Char) (t : Token) : Prop :=
  ∃ before after, text = before ++ (t.text.toList ++ after) ∧ t.start = byteLength before

variable {read : List Lexeme} {tokens : List Token} {t : Token} {offset : Nat} {source : String}
  {text : List Char}

theorem utf8ByteSize_eq (s : String) : s.utf8ByteSize = byteLength s.toList := by
  have hchars : ∀ chars : List Char, String.utf8Len chars = byteLength chars := by
    intro chars
    induction chars with
    | nil => rfl
    | cons c chars ih => rw [String.utf8Len_cons, byteLength_cons, ih, Nat.add_comm]
  rw [← hchars, ← String.utf8ByteSize_ofList, String.ofList_toList]

theorem mem_placeTokens (h : t ∈ placeTokens offset read) :
    ⟨.token t.kind, t.text.toList⟩ ∈ read ∧ ∃ before after,
      read.flatMap (·.text) = before ++ (t.text.toList ++ after) ∧
        t.start = offset + byteLength before := by
  fun_induction placeTokens offset read with
  | case1 => cases h
  | case2 offset kind text read ih =>
      rcases List.mem_cons.mp h with rfl | h
      · refine ⟨?_, [], read.flatMap (·.text), ?_, rfl⟩
        · rw [String.toList_ofList]
          exact List.mem_cons_self
        · rw [String.toList_ofList]
          rfl
      · obtain ⟨hmem, before, after, htext, hstart⟩ := ih h
        refine ⟨List.mem_cons_of_mem _ hmem, text ++ before, after, ?_, ?_⟩
        · rw [List.flatMap_cons, htext, List.append_assoc]
        · rw [hstart, byteLength_append, Nat.add_assoc]
  | case3 offset kind text read _ ih =>
      obtain ⟨hmem, before, after, htext, hstart⟩ := ih h
      refine ⟨List.mem_cons_of_mem _ hmem, text ++ before, after, ?_, ?_⟩
      · rw [List.flatMap_cons, htext, List.append_assoc]
      · rw [hstart, byteLength_append, Nat.add_assoc]

theorem pairwise_placeTokens (offset : Nat) (read : List Lexeme) :
    (placeTokens offset read).Pairwise fun t u => t.stop ≤ u.start := by
  fun_induction placeTokens offset read with
  | case1 => exact List.Pairwise.nil
  | case2 offset kind text read ih =>
      refine List.pairwise_cons.mpr ⟨fun u hu => ?_, ih⟩
      obtain ⟨-, before, after, -, hstart⟩ := mem_placeTokens hu
      rw [Token.stop, hstart, utf8ByteSize_eq, String.toList_ofList]
      exact Nat.le_add_right _ _
  | case3 offset kind text read _ ih => exact ih

theorem stands_of_mem_lexemes {kind : TokenKind} (h : ⟨.token kind, text⟩ ∈ (lexemes source.toList).1) :
    Lexeme.Stands kind text := by
  generalize source.toList = chars at h
  fun_induction lexemes chars with
  | case1 => cases h
  | case2 chars lexeme n hmeasure following rest hfollowing ih =>
      rw [hfollowing] at ih
      rcases List.mem_cons.mp h with heq | h
      · cases heq
        obtain ⟨front, tail, rfl, rfl, hstands⟩ := Lexeme.exists_stands hmeasure
        rw [List.take_left]
        exact hstands
      · exact ih h

/-- What is known of the tokens of a source. -/
structure TokensOf (source : String) (tokens : List Token) : Prop where
  stands : ∀ t ∈ tokens, Lexeme.Stands t.kind t.text.toList
  standsIn : ∀ t ∈ tokens, t.StandsIn source.toList
  ordered : tokens.Pairwise fun t u => t.stop ≤ u.start

theorem tokensOf (h : tokenize source = .ok tokens) : TokensOf source tokens := by
  rw [tokenize_eq_ok_iff, tokensAt?] at h
  have hwhole := flatMap_lexemes_append source.toList
  have hstands : ∀ kind text, ⟨.token kind, text⟩ ∈ (lexemes source.toList).1 →
      Lexeme.Stands kind text := fun _ _ => stands_of_mem_lexemes
  generalize lexemes source.toList = found at h hwhole hstands
  obtain ⟨read, left⟩ := found
  cases left with
  | cons c left => cases h
  | nil =>
      cases h
      rw [List.append_nil] at hwhole
      refine ⟨fun t ht => hstands _ _ (mem_placeTokens ht).1, fun t ht => ?_, pairwise_placeTokens 0 read⟩
      obtain ⟨-, before, after, htext, hstart⟩ := mem_placeTokens ht
      rw [Nat.zero_add] at hstart
      exact ⟨before, after, hwhole ▸ htext, hstart⟩

namespace TokensOf

theorem start_lt_stop (h : TokensOf source tokens) (ht : t ∈ tokens) : t.start < t.stop := by
  have hmeasure := h.stands t ht [] Lexeme.apart_nil
  have hpos := Lexeme.measure?_pos hmeasure
  obtain ⟨c, rest, htext⟩ := List.exists_cons_of_length_pos hpos
  have hsize := c.utf8Size_pos
  rw [Token.stop, utf8ByteSize_eq, htext, byteLength_cons]
  omega

theorem stop_le (h : TokensOf source tokens) (ht : t ∈ tokens) : t.stop ≤ source.utf8ByteSize := by
  obtain ⟨before, after, htext, hstart⟩ := h.standsIn t ht
  rw [Token.stop, hstart, utf8ByteSize_eq, utf8ByteSize_eq source, htext, byteLength_append,
    byteLength_append, ← Nat.add_assoc]
  exact Nat.le_add_right _ _

theorem eq_or_apart {u : Token} (h : TokensOf source tokens) (ht : t ∈ tokens) (hu : u ∈ tokens) :
    t = u ∨ t.stop ≤ u.start ∨ u.stop ≤ t.start := by
  obtain ⟨i, hi, rfl⟩ := List.getElem_of_mem ht
  obtain ⟨j, hj, rfl⟩ := List.getElem_of_mem hu
  have hordered := List.pairwise_iff_getElem.mp h.ordered
  rcases Nat.lt_trichotomy i j with hlt | rfl | hlt
  · exact Or.inr (Or.inl (hordered i j hi hj hlt))
  · exact Or.inl rfl
  · exact Or.inr (Or.inr (hordered j i hj hi hlt))

end TokensOf

/-! ### Tokens in other places -/

/-- The same word, wherever it stands. -/
def Token.SameWord (t u : Token) : Prop :=
  t.kind = u.kind ∧ t.text = u.text

/-- The texts of tokens with single spaces between them are read as these tokens again. -/
theorem scans_spaced (h : ∀ t ∈ tokens, Lexeme.Stands t.kind t.text.toList) :
    Scans ([' '].intercalate (tokens.map fun t => t.text.toList)) (List.Forall₂ Token.SameWord tokens) := by
  induction tokens with
  | nil => exact scans_nil .nil
  | cons t tokens ih =>
      rw [List.forall_mem_cons] at h
      have hrest := ih h.2
      have hahead : ∀ read, Ahead t.kind t.text.toList (List.Forall₂ Token.SameWord tokens) read →
          List.Forall₂ Token.SameWord (t :: tokens) read := by
        rintro _ ⟨u, tail, rfl, hkind, htext, htail⟩
        rw [String.ofList_toList] at htext
        exact .cons ⟨hkind.symm, htext.symm⟩ htail
      cases tokens with
      | nil =>
          have hlast := (scans_nil (P := List.Forall₂ Token.SameWord []) .nil).token
            (h.1 [] Lexeme.apart_nil)
          rw [List.append_nil] at hlast
          rw [List.map_cons, List.map_nil, List.intercalate_singleton]
          exact hlast.mono hahead
      | cons next tokens =>
          have hspace := hrest.blank (c := ' ') rfl
          rw [List.map_cons, List.map_cons, List.intercalate_cons_cons, List.append_assoc]
          exact (hspace.token (h.1 _ (Lexeme.apart_cons rfl _))).mono hahead

end AssetPipeline.Script
