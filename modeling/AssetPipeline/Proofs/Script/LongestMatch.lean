import AssetPipeline.Proofs.Script.Language

/-! Longest match. Taking the longest lexeme at every place is what reading a description does, and it
fails at the first place where there is none. -/

open Computability

namespace AssetPipeline.Script

namespace Lexeme

variable {text : List Char} {lexeme : Lexeme}

/-- The longest lexeme that a text begins with; a keyword is no name. -/
structure IsLongest (text : List Char) (lexeme : Lexeme) : Prop where
  ne_nil : lexeme.text ≠ []
  begins : lexeme.text <+: text
  mem : lexeme.text ∈ lexeme.kind.language
  longest : ∀ kind : LexemeKind, ∀ front ∈ kind.language, front <+: text →
    front.length ≤ lexeme.text.length
  no_keyword : lexeme.kind = .token .name → ∀ kind ∈ keywords,
    lexeme.text ∉ LexemeKind.language (.token kind)

theorem isLongest_iff : lexeme.IsLongest text ↔
    lexeme.text <+: text ∧ measure? text = some (lexeme.kind, lexeme.text.length) := by
  constructor
  · intro h
    refine ⟨h.begins, ?_⟩
    obtain ⟨rest, rfl⟩ := h.begins
    obtain ⟨kind, n, hmeasure, hle, hkind⟩ := covers_of_mem h.mem rest
    obtain ⟨front, tail, hsplit, rfl, hmem⟩ := exists_of_measure? hmeasure
    have hlength : lexeme.text.length = front.length :=
      Nat.le_antisymm hle (h.longest kind front hmem ⟨tail, hsplit.symm⟩)
    have hfront : lexeme.text = front := List.append_inj_left hsplit hlength
    rw [hmeasure, hlength]
    rcases hkind hlength with rfl | ⟨hname, rfl⟩
    · rfl
    · -- A word that is measured as a keyword lies in the language of that keyword.
      by_cases hkeyword : wordKind lexeme.text ∈ keywords
      · rw [← hfront] at hmem
        exact absurd hmem (h.no_keyword hname _ hkeyword)
      · have hword : wordKind lexeme.text = .name := by
          rw [wordKind] at hkeyword ⊢
          split_ifs at hkeyword ⊢ <;> first | rfl | exact absurd (by decide) hkeyword
        rw [hword, hname]
  · rintro ⟨⟨rest, rfl⟩, hmeasure⟩
    obtain ⟨front, tail, hsplit, hlength, hmem⟩ := exists_of_measure? hmeasure
    have hfront : lexeme.text = front := List.append_inj_left hsplit hlength.symm
    subst hfront
    refine ⟨?_, ⟨rest, rfl⟩, hmem, fun kind front hfront hbegins => ?_,
      fun hname kind hkind hkeyword => ?_⟩
    · exact List.length_pos_iff.mp (measure?_pos hmeasure)
    · obtain ⟨after, hafter⟩ := hbegins
      obtain ⟨kind', n, hmeasure', hle, -⟩ := covers_of_mem hfront after
      rw [hafter, hmeasure] at hmeasure'
      cases hmeasure'
      exact hle
    · obtain ⟨kind', n, hmeasure', -, hsame⟩ := covers_of_mem hkeyword rest
      rw [hmeasure, hname] at hmeasure'
      cases hmeasure'
      rcases hsame rfl with hsame | ⟨hsame, -⟩
      · cases hsame
        exact absurd hkind (by decide)
      · cases hsame
        exact absurd hkind (by decide)

end Lexeme

/-- Lexemes that are taken one after another from the beginning of a text, and what is left where there is
none. -/
inductive Takes : List Char → List Lexeme → List Char → Prop
  | stop {text : List Char} (none : ∀ lexeme : Lexeme, ¬ lexeme.IsLongest text) : Takes text [] text
  | step {lexeme : Lexeme} {rest left : List Char} {read : List Lexeme}
      (first : lexeme.IsLongest (lexeme.text ++ rest)) (more : Takes rest read left) :
      Takes (lexeme.text ++ rest) (lexeme :: read) left

variable {text left : List Char} {read : List Lexeme} {tokens : List Token} {source : String} {offset : Nat}

/-- Reading takes the longest lexemes. -/
theorem takes_iff : Takes text read left ↔ lexemes text = (read, left) := by
  constructor
  · intro h
    induction h with
    | @stop text none =>
        have hmeasure : Lexeme.measure? text = .none := by
          rw [Option.eq_none_iff_forall_not_mem]
          rintro ⟨kind, n⟩ hmeasure
          obtain ⟨front, tail, rfl, rfl, -⟩ := Lexeme.exists_of_measure? hmeasure
          exact none ⟨kind, front⟩ (Lexeme.isLongest_iff.mpr ⟨⟨tail, rfl⟩, hmeasure⟩)
        rw [lexemes]
        split
        · rfl
        · rename_i hsome
          rw [hmeasure] at hsome
          cases hsome
    | step first _ ih =>
        rw [lexemes_append (Lexeme.isLongest_iff.mp first).2, ih]
  · intro h
    fun_induction lexemes text generalizing read left with
    | case1 text hnone =>
        cases h
        refine .stop fun lexeme hlongest => ?_
        rw [(Lexeme.isLongest_iff.mp hlongest).2] at hnone
        cases hnone
    | case2 text kind n hsome following rest hfollowing ih =>
        cases h
        obtain ⟨front, tail, rfl, rfl, -⟩ := Lexeme.exists_of_measure? hsome
        rw [List.drop_left] at hfollowing ih
        rw [List.take_left]
        let lexeme : Lexeme := ⟨kind, front⟩
        have hlongest : lexeme.IsLongest (lexeme.text ++ tail) :=
          Lexeme.isLongest_iff.mpr ⟨⟨tail, rfl⟩, hsome⟩
        exact .step hlongest (ih hfollowing)

theorem Takes.flatMap_append (h : Takes text read left) : read.flatMap (·.text) ++ left = text := by
  have hwhole := flatMap_lexemes_append text
  rwa [takes_iff.mp h] at hwhole

theorem Takes.mem_language (h : Takes text read left) :
    ∀ lexeme ∈ read, lexeme.text ∈ lexeme.kind.language := by
  induction h with
  | stop none => exact List.forall_mem_nil _
  | step first _ ih => exact List.forall_mem_cons.mpr ⟨first.mem, ih⟩

/-! ### Tokens among lexemes -/

/-- A lexeme that stands at byte `start`, as a token. Blanks and comments are none. -/
def Lexeme.token? (lexeme : Lexeme) (start : Nat) : Option Token :=
  match lexeme.kind with
  | .token kind => some ⟨kind, String.ofList lexeme.text, start⟩
  | _ => none

/-- What may stand between tokens: blanks and comments. -/
def trivia : Language Char :=
  (LexemeKind.language .blank + LexemeKind.language .lineComment + LexemeKind.language .blockComment)∗

/-- A text that stands at byte `offset` is made of the tokens in their order, and of blanks and comments
before, between and behind them. -/
def Spaced (offset : Nat) : List Token → List Char → Prop
  | [], text => text ∈ trivia
  | t :: tokens, text => ∃ gap rest, text = gap ++ (t.text.toList ++ rest) ∧ gap ∈ trivia ∧
    t.start = offset + byteLength gap ∧ Spaced t.stop tokens rest

/-- Each token stands behind all lexemes that were taken before it. -/
theorem placeTokens_eq (offset : Nat) (read : List Lexeme) : placeTokens offset read =
    (List.range read.length).filterMap fun i =>
      read[i]?.bind (·.token? (offset + byteLength ((read.take i).flatMap (·.text)))) := by
  have hcons : ∀ (lexeme : Lexeme) (read : List Lexeme) (offset : Nat),
      ((List.range (lexeme :: read).length).filterMap fun i => (lexeme :: read)[i]?.bind
        (·.token? (offset + byteLength (((lexeme :: read).take i).flatMap (·.text))))) =
      (lexeme.token? offset).toList ++ (List.range read.length).filterMap fun i =>
        read[i]?.bind
          (·.token? (offset + byteLength lexeme.text + byteLength ((read.take i).flatMap (·.text)))) := by
    intro lexeme read offset
    rw [List.length_cons, List.range_succ_eq_map, List.filterMap_cons, List.filterMap_map]
    simp only [Function.comp_def, List.getElem?_cons_succ, List.take_succ_cons, List.flatMap_cons,
      byteLength_append, ← Nat.add_assoc]
    cases h : lexeme.token? offset with
    | none => simp [h]
    | some t => simp [h]
  fun_induction placeTokens offset read with
  | case1 => rfl
  | case2 offset kind text read ih => rw [hcons, ← ih]; rfl
  | case3 offset kind text read hkind ih =>
      rw [hcons, ← ih]
      cases kind with
      | token kind => exact absurd rfl (hkind kind)
      | blank => rfl
      | lineComment => rfl
      | blockComment => rfl

theorem Spaced.append {part : List Char} (h : Spaced (offset + byteLength part) tokens text)
    (hpart : part ∈ LexemeKind.language .blank + LexemeKind.language .lineComment +
      LexemeKind.language .blockComment) : Spaced offset tokens (part ++ text) := by
  cases tokens with
  | nil => exact append_mem_kstar hpart h
  | cons t tokens =>
      obtain ⟨gap, rest, rfl, hgap, hstart, hrest⟩ := h
      refine ⟨part ++ gap, rest, (List.append_assoc _ _ _).symm, append_mem_kstar hpart hgap, ?_, hrest⟩
      rw [hstart, byteLength_append, Nat.add_assoc]

theorem spaced_placeTokens (hread : ∀ lexeme ∈ read, lexeme.text ∈ lexeme.kind.language)
    (offset : Nat) :
    Spaced offset (placeTokens offset read) (read.flatMap (·.text)) := by
  fun_induction placeTokens offset read with
  | case1 => exact Language.nil_mem_kstar _
  | case2 offset kind text read ih =>
      rw [List.forall_mem_cons] at hread
      refine ⟨[], read.flatMap (·.text), ?_, Language.nil_mem_kstar _, rfl, ?_⟩
      · rw [String.toList_ofList]
        rfl
      · rw [Token.stop, utf8ByteSize_eq, String.toList_ofList]
        exact ih hread.2
  | case3 offset kind text read hkind ih =>
      rw [List.forall_mem_cons] at hread
      refine (ih hread.2).append ?_
      cases kind with
      | token kind => exact absurd rfl (hkind kind)
      | blank => exact Or.inl (Or.inl hread.1)
      | lineComment => exact Or.inl (Or.inr hread.1)
      | blockComment => exact Or.inr hread.1

theorem mem_language_of_mem_placeTokens (hread : ∀ lexeme ∈ read, lexeme.text ∈ lexeme.kind.language) :
    ∀ t ∈ placeTokens offset read, t.text.toList ∈ LexemeKind.language (.token t.kind) :=
  fun _ ht => hread _ (mem_placeTokens ht).1

/-! ### Where no lexeme is -/

theorem Position.advance_byteLength (p : Position) (before after : List Char) :
    p.advance (before ++ after) (byteLength before) = before.foldl Position.step p := by
  induction before generalizing p with
  | nil => exact Position.advance_zero p after
  | cons c before ih =>
      rw [List.cons_append, Position.advance, byteLength_cons, if_pos (Nat.le_add_right _ _),
        Nat.add_sub_cancel_left, ih, List.foldl_cons]

/-- The message for a character that no lexeme begins with differs from the others in its third letter. -/
theorem Problem.message_unexpectedCharacter (c : Char) {message : String}
    (h : message.toList[2]? = some 't') : (Problem.unexpectedCharacter c).message ≠ message := by
  have hmessage : (Problem.unexpectedCharacter c).message =
      "unexpected character '" ++ c.toString ++ "'" := by
    unfold Problem.message
    rfl
  have hlength : 2 < "unexpected character '".toList.length := by decide
  have hthird : "unexpected character '".toList[2]? = some 'e' := by decide
  rintro rfl
  rw [hmessage, String.append_assoc, String.toList_append, List.getElem?_append_left hlength, hthird] at h
  cases h

theorem Problem.message_ofUnreadable {c : Char} {rest : List Char} :
    ((Problem.ofUnreadable c rest).message = "unterminated string literal" ↔ c = '"' ∨ c = '\'') ∧
      ((Problem.ofUnreadable c rest).message = "unterminated block comment" ↔
        c = '/' ∧ rest.head? = some '*') := by
  have hdiffer : Problem.unterminatedString.message ≠ Problem.unterminatedComment.message := by decide
  rw [Problem.ofUnreadable]
  split_ifs with hquote hcomment
  · refine ⟨iff_of_true rfl hquote, iff_of_false hdiffer ?_⟩
    rintro ⟨rfl, -⟩
    revert hquote
    decide
  · exact ⟨iff_of_false hdiffer.symm hquote, iff_of_true rfl hcomment⟩
  · exact ⟨iff_of_false (message_unexpectedCharacter c (by decide)) hquote,
      iff_of_false (message_unexpectedCharacter c (by decide)) hcomment⟩

/-- Reading a description takes the longest lexeme at every place. Where these reach its end, they are
its tokens, blanks and comments apart, each with its text and its place. Where they do not, the first
place without a lexeme is reported, as that of a string or of a comment without an end if it begins
one. -/
theorem tokenize_longest (source : String) : ∃ read left, Takes source.toList read left ∧
    (∀ read' left', Takes source.toList read' left' → read' = read ∧ left' = left) ∧
    (left = [] → ∃ tokens, tokenize source = .ok tokens ∧
      (tokens = (List.range read.length).filterMap fun i =>
        read[i]?.bind (·.token? (byteLength ((read.take i).flatMap (·.text))))) ∧
      Spaced 0 tokens source.toList ∧
      tokens.Pairwise (fun t u => t.stop ≤ u.start) ∧
      ∀ t ∈ tokens, t.text.toList ∈ LexemeKind.language (.token t.kind) ∧
        t.StandsIn source.toList ∧ t.start < t.stop ∧ t.stop ≤ source.utf8ByteSize) ∧
    ∀ c rest, left = c :: rest → ∃ fault, tokenize source = .error fault ∧
      fault.offset = byteLength (read.flatMap (·.text)) ∧
      (fault.locate source).position = (read.flatMap (·.text)).foldl Position.step .start ∧
      (fault.problem.message = "unterminated string literal" ↔ c = '"' ∨ c = '\'') ∧
      (fault.problem.message = "unterminated block comment" ↔ c = '/' ∧ rest.head? = some '*') := by
  have htakes : Takes source.toList (lexemes source.toList).1 (lexemes source.toList).2 := takes_iff.mpr rfl
  generalize (lexemes source.toList).1 = read at htakes
  generalize (lexemes source.toList).2 = left at htakes
  have hlexemes := takes_iff.mp htakes
  refine ⟨read, left, htakes, fun read' left' htakes' => ?_, ?_, ?_⟩
  · rw [takes_iff, hlexemes] at htakes'
    cases htakes'
    exact ⟨rfl, rfl⟩
  · rintro rfl
    have hok : tokenize source = .ok (placeTokens 0 read) := by rw [tokenize, hlexemes]
    have hof := tokensOf hok
    have hspaced := spaced_placeTokens htakes.mem_language 0
    have hwhole := htakes.flatMap_append
    rw [List.append_nil] at hwhole
    rw [hwhole] at hspaced
    refine ⟨_, hok, ?_, hspaced, hof.ordered, fun t ht =>
      ⟨mem_language_of_mem_placeTokens htakes.mem_language t ht, hof.standsIn t ht, hof.start_lt_stop ht, hof.stop_le ht⟩⟩
    rw [placeTokens_eq]
    simp only [Nat.zero_add]
  · rintro c rest rfl
    refine ⟨⟨byteLength (read.flatMap (·.text)), .ofUnreadable c rest⟩,
      by rw [tokenize, hlexemes], rfl, ?_, Problem.message_ofUnreadable⟩
    rw [Fault.locate, Position.ofOffset, ← htakes.flatMap_append]
    exact Position.advance_byteLength _ _ _

end AssetPipeline.Script
