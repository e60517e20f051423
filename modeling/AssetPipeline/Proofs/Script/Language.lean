import AssetPipeline.Proofs.Script.Spacing
import Mathlib.Computability.Language

/-! What the lexemes of a description look like: for each kind a regular language, and what is measured
at the beginning of a text is the longest of its beginnings that lies in one of them. -/

open Computability

namespace AssetPipeline.Script

/-- The texts of one character, which the class holds for. -/
def oneOf (keep : Char → Bool) : Language Char :=
  {text | ∃ c, text = [c] ∧ keep c = true}

/-- This text alone. -/
def exactly (word : String) : Language Char :=
  {word.toList}

/-- One text of a language, or several one behind the other. -/
def several (l : Language Char) : Language Char :=
  l * l∗

section Language

variable {keep : Char → Bool} {text part : List Char} {l : Language Char}

theorem append_mem_kstar (hpart : part ∈ l) (htext : text ∈ l∗) : part ++ text ∈ l∗ := by
  obtain ⟨parts, rfl, hparts⟩ := Language.mem_kstar.mp htext
  exact Language.mem_kstar.mpr ⟨part :: parts, rfl, List.forall_mem_cons.mpr ⟨hpart, hparts⟩⟩

/-- What holds of no text, and behind a text of the language when it holds of the rest, holds of texts
one behind the other. -/
theorem kstar_induction {motive : List Char → Prop} (nil : motive [])
    (append : ∀ part text, part ∈ l → text ∈ l∗ → motive text → motive (part ++ text))
    (h : text ∈ l∗) : motive text := by
  obtain ⟨parts, rfl, hparts⟩ := Language.mem_kstar.mp h
  clear h
  induction parts with
  | nil => exact nil
  | cons part parts ih =>
      rw [List.forall_mem_cons] at hparts
      exact append part _ hparts.1 (Language.join_mem_kstar hparts.2) (ih hparts.2)

theorem mem_kstar_oneOf_iff : text ∈ (oneOf keep)∗ ↔ ∀ c ∈ text, keep c = true := by
  constructor
  · intro h
    refine kstar_induction (motive := fun text => ∀ c ∈ text, keep c = true) (List.forall_mem_nil _)
      (fun part text hpart _ ih => ?_) h
    obtain ⟨c, rfl, hc⟩ := hpart
    exact List.forall_mem_cons.mpr ⟨hc, ih⟩
  · intro h
    induction text with
    | nil => exact Language.nil_mem_kstar _
    | cons c text ih =>
        rw [List.forall_mem_cons] at h
        have hc : [c] ∈ oneOf keep := ⟨c, rfl, h.1⟩
        exact append_mem_kstar hc (ih h.2)

/-- A character of one class, and characters of another one behind it. -/
theorem mem_oneOf_mul_iff {keep' : Char → Bool} : text ∈ oneOf keep * (oneOf keep')∗ ↔
    ∃ c rest, text = c :: rest ∧ keep c = true ∧ ∀ d ∈ rest, keep' d = true := by
  rw [Language.mem_mul]
  constructor
  · rintro ⟨_, ⟨c, rfl, hc⟩, rest, hrest, rfl⟩
    exact ⟨c, rest, rfl, hc, mem_kstar_oneOf_iff.mp hrest⟩
  · rintro ⟨c, rest, rfl, hc, hrest⟩
    exact ⟨[c], ⟨c, rfl, hc⟩, rest, mem_kstar_oneOf_iff.mpr hrest, rfl⟩

theorem mem_several_oneOf_iff :
    text ∈ several (oneOf keep) ↔ text ≠ [] ∧ ∀ c ∈ text, keep c = true := by
  rw [several, mem_oneOf_mul_iff]
  constructor
  · rintro ⟨c, rest, rfl, hc, hrest⟩
    exact ⟨List.cons_ne_nil _ _, List.forall_mem_cons.mpr ⟨hc, hrest⟩⟩
  · rintro ⟨hne, h⟩
    obtain ⟨c, rest, rfl⟩ := List.exists_cons_of_ne_nil hne
    rw [List.forall_mem_cons] at h
    exact ⟨c, rest, rfl, h⟩

end Language

namespace LexemeKind

/-- A string between two quotes of one sort. -/
def quotedWith (quote : Char) : Language Char :=
  oneOf (· = quote) *
    (oneOf (fun c => c ≠ quote && c ≠ '\\' && c ≠ '\n') + oneOf (· = '\\') * oneOf (· ≠ '\n'))∗ *
      oneOf (· = quote)

/-- The texts that a kind of lexeme can have. -/
def language : LexemeKind → Language Char
  | .token .parenOpen => exactly "("
  | .token .parenClose => exactly ")"
  | .token .bracketOpen => exactly "["
  | .token .bracketClose => exactly "]"
  | .token .comma => exactly ","
  | .token .dot => exactly "."
  | .token .semicolon => exactly ";"
  | .token .equals => exactly "="
  | .token .plus => exactly "+"
  | .token .declare => exactly "var" + exactly "let" + exactly "const"
  | .token .yes => exactly "true"
  | .token .no => exactly "false"
  | .token .name =>
    oneOf (fun c => c.isAlpha || c = '_' || c = '$') *
      (oneOf (fun c => c.isAlphanum || c = '_' || c = '$'))∗
  | .token .number =>
    several (oneOf Char.isDigit) * (1 + exactly "." * several (oneOf Char.isDigit))
  | .token .text => quotedWith '"' + quotedWith '\''
  | .blank => several (oneOf fun c => [' ', '\t', '\r', '\n', '\x0c'].contains c)
  | .lineComment => exactly "//" * (oneOf (· ≠ '\n'))∗
  | .blockComment =>
    exactly "/*" *
      (oneOf (· ≠ '*') + several (exactly "*") * oneOf (fun c => c ≠ '*' && c ≠ '/'))∗ *
        several (exactly "*") * exactly "/"

end LexemeKind

namespace Lexeme

variable {c quote : Char} {text front rest body : List Char} {kind : LexemeKind} {n : Nat}

/-! ### Words and blanks -/

theorem mem_name_iff : text ∈ LexemeKind.language (.token .name) ↔
    ∃ c word, text = c :: word ∧ isNameStart c = true ∧ ∀ d ∈ word, isNamePart d = true := by
  have hpart : ∀ d : Char, (d.isAlphanum || d = '_' || d = '$') = isNamePart d := by
    intro d
    rw [isNamePart, isNameStart, Char.isAlphanum]
    cases d.isAlpha <;> cases d.isDigit <;> cases decide (d = '_') <;> cases decide (d = '$') <;> rfl
  rw [LexemeKind.language, mem_oneOf_mul_iff]
  simp only [hpart]
  rfl

theorem mem_blank_iff :
    text ∈ LexemeKind.language .blank ↔ text ≠ [] ∧ ∀ c ∈ text, isBlank c = true := by
  have hblank : ∀ d : Char, [' ', '\t', '\r', '\n', '\x0c'].contains d = isBlank d := by
    intro d
    simp only [List.contains_cons, List.contains_nil, Bool.or_false, isBlank, Bool.or_assoc]
    rfl
  rw [LexemeKind.language, mem_several_oneOf_iff]
  simp only [hblank]

theorem mem_lineComment_iff : text ∈ LexemeKind.language .lineComment ↔
    ∃ line, text = '/' :: '/' :: line ∧ ∀ c ∈ line, c ≠ '\n' := by
  rw [LexemeKind.language, Language.mem_mul]
  constructor
  · rintro ⟨_, rfl, line, hline, rfl⟩
    exact ⟨line, rfl, fun c hc => of_decide_eq_true (mem_kstar_oneOf_iff.mp hline c hc)⟩
  · rintro ⟨line, rfl, hline⟩
    exact ⟨_, rfl, line, mem_kstar_oneOf_iff.mpr fun c hc => decide_eq_true (hline c hc), rfl⟩

theorem mem_number_iff : text ∈ LexemeKind.language (.token .number) ↔
    ∃ whole, whole ≠ [] ∧ (∀ c ∈ whole, c.isDigit = true) ∧ (text = whole ∨
      ∃ digits, digits ≠ [] ∧ (∀ c ∈ digits, c.isDigit = true) ∧
        text = whole ++ '.' :: digits) := by
  rw [LexemeKind.language, Language.mem_mul]
  constructor
  · rintro ⟨whole, hwhole, _, rfl | hfraction, rfl⟩
    · obtain ⟨hne, hwhole⟩ := mem_several_oneOf_iff.mp hwhole
      exact ⟨whole, hne, hwhole, Or.inl (List.append_nil _)⟩
    · obtain ⟨hne, hwhole⟩ := mem_several_oneOf_iff.mp hwhole
      obtain ⟨_, rfl, digits, hdigits, rfl⟩ := Language.mem_mul.mp hfraction
      obtain ⟨hsome, hdigits⟩ := mem_several_oneOf_iff.mp hdigits
      exact ⟨whole, hne, hwhole, Or.inr ⟨digits, hsome, hdigits, rfl⟩⟩
  · rintro ⟨whole, hne, hwhole, rfl | ⟨digits, hsome, hdigits, rfl⟩⟩
    · exact ⟨text, mem_several_oneOf_iff.mpr ⟨hne, hwhole⟩, [], Or.inl rfl, List.append_nil _⟩
    · refine ⟨whole, mem_several_oneOf_iff.mpr ⟨hne, hwhole⟩, '.' :: digits, Or.inr ?_, rfl⟩
      exact Language.mem_mul.mpr ⟨_, rfl, digits, mem_several_oneOf_iff.mpr ⟨hsome, hdigits⟩, rfl⟩

/-! ### Strings -/

/-- The texts between two quotes: characters, and characters behind a backslash. -/
def inside (quote : Char) : Language Char :=
  (oneOf (fun c => c ≠ quote && c ≠ '\\' && c ≠ '\n') + oneOf (· = '\\') * oneOf (· ≠ '\n'))∗

theorem mem_quotedWith_iff :
    text ∈ LexemeKind.quotedWith quote ↔ ∃ body ∈ inside quote, text = quote :: body ++ [quote] := by
  rw [LexemeKind.quotedWith, Language.mem_mul]
  constructor
  · rintro ⟨_, hfront, _, ⟨c, rfl, hc⟩, rfl⟩
    obtain ⟨_, ⟨d, rfl, hd⟩, body, hbody, rfl⟩ := Language.mem_mul.mp hfront
    rw [of_decide_eq_true hc, of_decide_eq_true hd]
    exact ⟨body, hbody, rfl⟩
  · rintro ⟨body, hbody, rfl⟩
    have hquote : [quote] ∈ oneOf (· = quote) := ⟨quote, rfl, decide_eq_true rfl⟩
    exact ⟨quote :: body, Language.mem_mul.mpr ⟨[quote], hquote, body, hbody, rfl⟩, [quote], hquote,
      rfl⟩

theorem mem_inside_iff : body ∈ inside quote ↔ ∃ pieces : List Literal.Piece,
    (∀ piece ∈ pieces, piece.Fits quote) ∧ body = pieces.flatMap Literal.Piece.text := by
  constructor
  · intro h
    refine kstar_induction (motive := fun body => ∃ pieces : List Literal.Piece,
      (∀ piece ∈ pieces, piece.Fits quote) ∧ body = pieces.flatMap Literal.Piece.text)
      ⟨[], List.forall_mem_nil _, rfl⟩ (fun part body hpart _ ih => ?_) h
    obtain ⟨pieces, hfits, rfl⟩ := ih
    rcases hpart with ⟨c, rfl, hc⟩ | hpart
    · simp only [Bool.and_eq_true, decide_eq_true_eq] at hc
      obtain ⟨⟨hend, hslash⟩, hfeed⟩ := hc
      exact ⟨.plain c hslash :: pieces, List.forall_mem_cons.mpr ⟨⟨hend, hfeed⟩, hfits⟩, rfl⟩
    · obtain ⟨_, ⟨c, rfl, hc⟩, _, ⟨d, rfl, hd⟩, rfl⟩ := Language.mem_mul.mp hpart
      have hfeed : d ≠ '\n' := of_decide_eq_true hd
      rw [of_decide_eq_true hc]
      exact ⟨.escape d :: pieces, List.forall_mem_cons.mpr ⟨hfeed, hfits⟩, rfl⟩
  · rintro ⟨pieces, hfits, rfl⟩
    induction pieces with
    | nil => exact Language.nil_mem_kstar _
    | cons piece pieces ih =>
        rw [List.forall_mem_cons] at hfits
        refine append_mem_kstar ?_ (ih hfits.2)
        cases piece with
        | plain c hslash =>
            obtain ⟨hend, hfeed⟩ : c ≠ quote ∧ c ≠ '\n' := hfits.1
            exact Or.inl ⟨c, rfl, by simp [hend, hslash, hfeed]⟩
        | escape c =>
            have hfeed : c ≠ '\n' := hfits.1
            exact Or.inr (Language.mem_mul.mpr
              ⟨['\\'], ⟨_, rfl, rfl⟩, [c], ⟨c, rfl, decide_eq_true hfeed⟩, rfl⟩)

theorem quotedLength?_of_mem (hquote : quote ≠ '\\') (hbody : body ∈ inside quote) (rest : List Char) :
    quotedLength? quote (body ++ quote :: rest) = some (body.length + 1) := by
  obtain ⟨pieces, hfits, rfl⟩ := mem_inside_iff.mp hbody
  exact Literal.quotedLength?_flatMap hquote hfits rest

theorem exists_of_quotedLength? (h : quotedLength? quote text = some n) :
    ∃ body tail, body ∈ inside quote ∧ text = body ++ quote :: tail ∧ n = body.length + 1 := by
  obtain ⟨pieces, tail, hfits, rfl, rfl⟩ := Literal.exists_pieces h
  exact ⟨_, tail, mem_inside_iff.mpr ⟨pieces, hfits, rfl⟩, rfl, rfl⟩

/-! ### Block comments -/

/-- A character of a block comment, or stars with one behind them that does not close it. -/
def commentPart : Language Char :=
  oneOf (· ≠ '*') + several (exactly "*") * oneOf (fun c => c ≠ '*' && c ≠ '/')

/-- The texts between the opening of a block comment and the stars and the slash that close it. -/
def commented : Language Char :=
  commentPart∗

theorem mem_stars_iff : text ∈ several (exactly "*") ↔ ∃ n, text = List.replicate (n + 1) '*' := by
  rw [several, Language.mem_mul]
  constructor
  · rintro ⟨_, rfl, stars, hstars, rfl⟩
    obtain ⟨n, rfl⟩ : ∃ n, stars = List.replicate n '*' := by
      refine kstar_induction (motive := fun stars => ∃ n, stars = List.replicate n '*') ⟨0, rfl⟩
        (fun part stars hpart _ ih => ?_) hstars
      obtain ⟨n, rfl⟩ := ih
      exact ⟨n + 1, by rw [hpart]; rfl⟩
    exact ⟨n, rfl⟩
  · rintro ⟨n, rfl⟩
    refine ⟨_, rfl, List.replicate n '*', ?_, rfl⟩
    induction n with
    | zero => exact Language.nil_mem_kstar _
    | succ n ih =>
        have hstar : ['*'] ∈ exactly "*" := rfl
        exact append_mem_kstar hstar ih

theorem mem_blockComment_iff : text ∈ LexemeKind.language .blockComment ↔
    ∃ body ∈ commented, ∃ n, text = '/' :: '*' :: (body ++ (List.replicate (n + 1) '*' ++ ['/'])) := by
  rw [LexemeKind.language, Language.mem_mul]
  constructor
  · rintro ⟨_, hclosed, _, rfl, rfl⟩
    obtain ⟨_, hopened, stars, hstars, rfl⟩ := Language.mem_mul.mp hclosed
    obtain ⟨_, rfl, body, hbody, rfl⟩ := Language.mem_mul.mp hopened
    obtain ⟨n, rfl⟩ := mem_stars_iff.mp hstars
    exact ⟨body, hbody, n, by simp⟩
  · rintro ⟨body, hbody, n, rfl⟩
    refine ⟨_, Language.mem_mul.mpr ⟨_, Language.mem_mul.mpr ⟨_, rfl, body, hbody, rfl⟩,
      List.replicate (n + 1) '*', mem_stars_iff.mpr ⟨n, rfl⟩, rfl⟩, _, rfl, by simp⟩

/-- A character that does not close the comment is passed over. -/
theorem commentLength?_cons (h : ¬ (c = '*' ∧ text.head? = some '/')) :
    commentLength? (c :: text) = (commentLength? text).map (· + 1) := by
  rw [commentLength?]
  rintro rest rfl rfl
  exact h ⟨rfl, rfl⟩

/-- Stars are passed over up to the last one, which closes the comment if a slash stands behind it. -/
theorem commentLength?_stars (n : Nat) (c : Char) (text : List Char) :
    commentLength? (List.replicate (n + 1) '*' ++ c :: text) =
      (if c = '/' then some 2 else (commentLength? (c :: text)).map (· + 1)).map (· + n) := by
  induction n with
  | zero =>
      split_ifs with hslash
      · rw [hslash]
        rfl
      · rw [List.replicate_one, List.singleton_append, commentLength?_cons (by simp [hslash]),
          Option.map_map]
        rfl
  | succ n ih =>
      rw [List.replicate_succ, List.cons_append, commentLength?_cons (by simp [List.replicate_succ]), ih,
        Option.map_map]
      rfl

theorem commentLength?_of_mem (hbody : body ∈ commented) (n : Nat) (rest : List Char) :
    commentLength? (body ++ (List.replicate (n + 1) '*' ++ '/' :: rest)) = some (body.length + n + 2) := by
  refine kstar_induction (motive := fun body => commentLength?
    (body ++ (List.replicate (n + 1) '*' ++ '/' :: rest)) = some (body.length + n + 2)) ?_
    (fun part body hpart _ ih => ?_) hbody
  · rw [List.nil_append, commentLength?_stars, if_pos rfl]
    simp [Nat.add_comm]
  · rcases hpart with ⟨c, rfl, hc⟩ | hpart
    · have hne : c ≠ '*' := of_decide_eq_true hc
      rw [List.singleton_append, List.cons_append, commentLength?_cons (fun h => hne h.1), ih]
      simp; omega
    · obtain ⟨stars, hstars, _, ⟨c, rfl, hc⟩, rfl⟩ := Language.mem_mul.mp hpart
      obtain ⟨m, rfl⟩ := mem_stars_iff.mp hstars
      simp only [Bool.and_eq_true, decide_eq_true_eq] at hc
      rw [List.append_assoc, List.append_assoc, List.singleton_append, commentLength?_stars,
        if_neg hc.2, commentLength?_cons (fun h => hc.1 h.1), ih]
      simp; omega

/-- A comment goes on behind a star, unless a slash stands there. -/
theorem star_cons_commented (hbody : body ∈ commented) (hne : body ≠ [])
    (hhead : body.head? ≠ some '/') :
    '*' :: body ∈ commented := by
  refine kstar_induction (motive := fun body => body ≠ [] → body.head? ≠ some '/' →
    '*' :: body ∈ commented) (fun hne => absurd rfl hne)
    (fun part body hpart hbody _ _ hhead => ?_) hbody hne hhead
  rcases hpart with ⟨c, rfl, hplain⟩ | hpart
  · have hslash : c ≠ '/' := by
      rintro rfl
      exact hhead rfl
    have hstar : ['*'] ∈ several (exactly "*") := mem_stars_iff.mpr ⟨0, rfl⟩
    have hother : [c] ∈ oneOf fun c => c ≠ '*' && c ≠ '/' := ⟨c, rfl, by simpa [hslash] using hplain⟩
    have hpair : ['*', c] ∈ commentPart := Or.inr (Language.mem_mul.mpr ⟨_, hstar, _, hother, rfl⟩)
    exact append_mem_kstar hpair hbody
  · obtain ⟨stars, hstars, last, hlast, rfl⟩ := Language.mem_mul.mp hpart
    obtain ⟨m, rfl⟩ := mem_stars_iff.mp hstars
    have hmore : List.replicate (m + 2) '*' ++ last ∈ commentPart :=
      Or.inr (Language.mem_mul.mpr ⟨_, mem_stars_iff.mpr ⟨m + 1, rfl⟩, last, hlast, rfl⟩)
    exact append_mem_kstar hmore hbody

theorem exists_of_commentLength? (h : commentLength? text = some n) :
    ∃ body ∈ commented, ∃ m tail, text = body ++ (List.replicate (m + 1) '*' ++ '/' :: tail) ∧
      n = body.length + m + 2 := by
  fun_induction commentLength? text generalizing n with
  | case1 => cases h
  | case2 tail =>
      cases h
      exact ⟨[], Language.nil_mem_kstar _, 0, tail, rfl, rfl⟩
  | case3 c text hopen ih =>
      obtain ⟨k, hk, rfl⟩ := Option.map_eq_some_iff.mp h
      obtain ⟨body, hbody, m, tail, rfl, rfl⟩ := ih hk
      by_cases hc : c = '*'
      · subst hc
        cases body with
        | nil => exact ⟨[], hbody, m + 1, tail, rfl, by simp⟩
        | cons d body =>
            have hhead : (d :: body).head? ≠ some '/' := by
              intro hd
              cases hd
              exact hopen _ rfl rfl
            exact ⟨'*' :: d :: body, star_cons_commented hbody (List.cons_ne_nil _ _) hhead, m, tail, rfl,
              by simp; omega⟩
      · exact ⟨[c] ++ body, append_mem_kstar (Or.inl ⟨c, rfl, decide_eq_true hc⟩) hbody, m, tail, rfl,
          by simp; omega⟩

/-! ### The beginning of a text -/

theorem measure?_blank (hc : isBlank c = true) :
    measure? (c :: rest) = some (.blank, (rest.takeWhile isBlank).length + 1) := by
  rw [measure?.eq_def]
  simp only [punctuation?_eq_none (Or.inl hc), if_pos hc]

theorem measure?_lineComment (line : List Char) :
    measure? ('/' :: '/' :: line) = some (.lineComment, (line.takeWhile (· ≠ '\n')).length + 2) := by
  rw [measure?.eq_def]
  rfl

theorem measure?_blockComment (body : List Char) :
    measure? ('/' :: '*' :: body) = (commentLength? body).map fun n => (.blockComment, n + 2) := by
  rw [measure?.eq_def]
  rfl

theorem mem_language_of_punctuation? {kind : TokenKind} (hc : punctuation? c = some kind) :
    [c] ∈ LexemeKind.language (.token kind) := by
  unfold punctuation? at hc
  split at hc
  case h_10 => cases hc
  all_goals
    cases hc
    rfl

/-- The words that are no names. -/
def keywords : List TokenKind := [.declare, .yes, .no]

theorem mem_language_wordKind {word : List Char} (hc : isNameStart c = true)
    (hword : ∀ d ∈ word, isNamePart d = true) :
    c :: word ∈ LexemeKind.language (.token (wordKind (c :: word))) := by
  rw [wordKind]
  split_ifs with hdeclare hyes hno
  · rcases hdeclare with heq | heq | heq
    · exact Or.inl (Or.inl heq)
    · exact Or.inl (Or.inr heq)
    · exact Or.inr heq
  · exact hyes
  · exact hno
  · exact mem_name_iff.mpr ⟨c, word, rfl, hc, hword⟩

theorem wordKind_of_keyword {kind : TokenKind} (hkind : kind ∈ keywords)
    (htext : text ∈ LexemeKind.language (.token kind)) :
    wordKind text = kind ∧ text ∈ LexemeKind.language (.token .name) := by
  have hkeywords : ∀ word ∈ ["var", "let", "const", "true", "false"],
      word.toList ∈ LexemeKind.language (.token .name) := by
    intro word hword
    have hname : ∀ word ∈ ["var", "let", "const", "true", "false"], isWord word.toList = true := by decide
    have hword := hname word hword
    generalize word.toList = chars at hword
    cases chars with
    | nil => cases hword
    | cons c chars =>
        rw [isWord, Bool.and_eq_true, List.all_eq_true] at hword
        exact mem_name_iff.mpr ⟨c, chars, rfl, hword⟩
  simp only [keywords, List.mem_cons, List.not_mem_nil, or_false] at hkind
  rcases hkind with rfl | rfl | rfl
  · rcases htext with (rfl | rfl) | rfl
    · exact ⟨by decide, hkeywords "var" (by decide)⟩
    · exact ⟨by decide, hkeywords "let" (by decide)⟩
    · exact ⟨by decide, hkeywords "const" (by decide)⟩
  · cases htext
    exact ⟨by decide, hkeywords "true" (by decide)⟩
  · cases htext
    exact ⟨by decide, hkeywords "false" (by decide)⟩

/-- A number stands at the beginning of every text that a digit stands at the beginning of. -/
theorem exists_number_prefix (hc : c.isDigit = true) (text : List Char) :
    ∃ front tail, c :: text = front ++ tail ∧ front.length = numberLength (c :: text) ∧
      front ∈ LexemeKind.language (.token .number) := by
  obtain ⟨whole, behind, heq, hwhole, hbehind⟩ := exists_takeWhile Char.isDigit (c :: text)
  have hne : whole ≠ [] := by
    rintro rfl
    rw [List.nil_append] at heq
    rw [← heq] at hbehind
    exact absurd (hbehind c rfl) (by rw [hc]; decide)
  rw [heq]
  by_cases hfraction : ∀ fraction, behind = '.' :: fraction → fraction.takeWhile Char.isDigit = []
  · exact ⟨whole, behind, rfl, (numberLength_whole hwhole hbehind hfraction).symm,
      mem_number_iff.mpr ⟨whole, hne, hwhole, Or.inl rfl⟩⟩
  · simp only [not_forall] at hfraction
    obtain ⟨fraction, rfl, hsome⟩ := hfraction
    obtain ⟨digits, tail, rfl, hdigits, htail⟩ := exists_takeWhile Char.isDigit fraction
    rw [takeWhile_append_of_head hdigits htail] at hsome
    exact ⟨whole ++ '.' :: digits, tail, by simp, (numberLength_fraction hwhole hdigits hsome htail).symm,
      mem_number_iff.mpr ⟨whole, hne, hwhole, Or.inr ⟨digits, hsome, hdigits, rfl⟩⟩⟩

/-- What is measured lies in the language of its kind. -/
theorem exists_of_measure? (h : measure? text = some (kind, n)) :
    ∃ front tail, text = front ++ tail ∧ front.length = n ∧ front ∈ kind.language := by
  cases text with
  | nil => cases h
  | cons c text =>
      rw [measure?.eq_def] at h
      dsimp only at h
      split at h
      · rename_i kind hkind
        cases h
        exact ⟨[c], text, rfl, rfl, mem_language_of_punctuation? hkind⟩
      · split_ifs at h with hblank hname hdigit hquote hslash
        · cases h
          obtain ⟨blanks, tail, rfl, hblanks, htail⟩ := exists_takeWhile isBlank text
          rw [takeWhile_append_of_head hblanks htail]
          exact ⟨c :: blanks, tail, rfl, rfl,
            mem_blank_iff.mpr ⟨List.cons_ne_nil _ _, List.forall_mem_cons.mpr ⟨hblank, hblanks⟩⟩⟩
        · cases h
          obtain ⟨word, tail, rfl, hword, htail⟩ := exists_takeWhile isNamePart text
          rw [takeWhile_append_of_head hword htail]
          exact ⟨c :: word, tail, rfl, rfl, mem_language_wordKind hname hword⟩
        · cases h
          exact exists_number_prefix hdigit text
        · obtain ⟨m, hm, h⟩ := Option.map_eq_some_iff.mp h
          cases h
          obtain ⟨body, tail, hbody, rfl, rfl⟩ := exists_of_quotedLength? hm
          have hmem : c :: body ++ [c] ∈ LexemeKind.quotedWith c :=
            mem_quotedWith_iff.mpr ⟨body, hbody, rfl⟩
          refine ⟨c :: body ++ [c], tail, by simp, by simp, ?_⟩
          rcases hquote with rfl | rfl
          · exact Or.inl hmem
          · exact Or.inr hmem
        · subst hslash
          split at h
          · rename_i line
            cases h
            obtain ⟨comment, tail, rfl, hcomment, htail⟩ :=
              exists_takeWhile (fun c => decide (c ≠ '\n')) line
            rw [takeWhile_append_of_head hcomment htail]
            exact ⟨'/' :: '/' :: comment, tail, rfl, rfl,
              mem_lineComment_iff.mpr ⟨comment, rfl, fun c hc => of_decide_eq_true (hcomment c hc)⟩⟩
          · rename_i inner
            obtain ⟨m, hm, h⟩ := Option.map_eq_some_iff.mp h
            cases h
            obtain ⟨body, hbody, k, tail, rfl, rfl⟩ := exists_of_commentLength? hm
            exact ⟨'/' :: '*' :: (body ++ (List.replicate (k + 1) '*' ++ ['/'])), tail, by simp,
              by simp; omega,
              mem_blockComment_iff.mpr ⟨body, hbody, k, rfl⟩⟩
          · cases h

/-! ### No longer beginning -/

theorem length_takeWhile_le_numberLength (text : List Char) :
    (text.takeWhile Char.isDigit).length ≤ numberLength text := by
  rw [numberLength]
  split
  · split
    · exact Nat.le_refl _
    · omega
  · exact Nat.le_refl _

theorem length_le_numberLength (hfront : front ∈ LexemeKind.language (.token .number)) (rest : List Char) :
    front.length ≤ numberLength (front ++ rest) := by
  obtain ⟨whole, -, hwhole, rfl | ⟨digits, hsome, hdigits, rfl⟩⟩ := mem_number_iff.mp hfront
  · refine Nat.le_trans ?_ (length_takeWhile_le_numberLength _)
    rw [List.takeWhile_append_of_pos hwhole, List.length_append]
    exact Nat.le_add_right _ _
  · obtain ⟨more, tail, rfl, hmore, htail⟩ := exists_takeWhile Char.isDigit rest
    have hall : ∀ c ∈ digits ++ more, c.isDigit = true := by
      rw [List.forall_mem_append]
      exact ⟨hdigits, hmore⟩
    have hne : digits ++ more ≠ [] := List.append_ne_nil_of_left_ne_nil hsome more
    have hlength := numberLength_fraction hwhole hall hne htail
    simp only [List.append_assoc, List.cons_append] at hlength ⊢
    rw [hlength]
    simp

/-- A word at the beginning of a text, and what stands behind it as far as it belongs to the word. -/
theorem measure?_word_append (hfront : front ∈ LexemeKind.language (.token .name)) (rest : List Char) :
    ∃ more, measure? (front ++ rest) =
      some (.token (wordKind (front ++ more)), (front ++ more).length) := by
  obtain ⟨c, word, rfl, hc, hword⟩ := mem_name_iff.mp hfront
  refine ⟨rest.takeWhile isNamePart, ?_⟩
  rw [List.cons_append, measure?_word hc, List.takeWhile_append_of_pos hword]
  rfl

/-- A lexeme that is measured at the beginning of a text is as long as `front` at least. It is of the given
kind if it is no longer, unless it is a word. -/
def Covers (kind : LexemeKind) (front rest : List Char) : Prop :=
  ∃ kind' n, measure? (front ++ rest) = some (kind', n) ∧ front.length ≤ n ∧
    (front.length = n → kind' = kind ∨ kind = .token .name ∧ kind' = .token (wordKind front))

theorem covers_of_measure? (h : measure? (front ++ rest) = some (kind, n)) (hn : front.length ≤ n) :
    Covers kind front rest :=
  ⟨kind, n, h, hn, fun _ => Or.inl rfl⟩

theorem covers_of_punctuation? {kind : TokenKind} (hfront : front = [c]) (hc : punctuation? c = some kind)
    (rest : List Char) : Covers (.token kind) front rest := by
  subst hfront
  exact covers_of_measure? (measure?_punctuation hc) (Nat.le_refl _)

theorem covers_of_word {kind : TokenKind} (hfront : front ∈ LexemeKind.language (.token .name))
    (hkind : kind = .name ∨ wordKind front = kind) (rest : List Char) :
    Covers (.token kind) front rest := by
  obtain ⟨more, hmore⟩ := measure?_word_append hfront rest
  refine ⟨_, _, hmore, by simp, fun hlength => ?_⟩
  have hnil : more = [] := by simpa using hlength
  subst hnil
  rw [List.append_nil]
  rcases hkind with rfl | rfl
  · exact Or.inr ⟨rfl, rfl⟩
  · exact Or.inl rfl

theorem covers_of_keyword {kind : TokenKind} (hkind : kind ∈ keywords)
    (hfront : front ∈ LexemeKind.language (.token kind)) (rest : List Char) :
    Covers (.token kind) front rest := by
  obtain ⟨hword, hname⟩ := wordKind_of_keyword hkind hfront
  exact covers_of_word hname (Or.inr hword) rest

theorem covers_of_number (hfront : front ∈ LexemeKind.language (.token .number)) (rest : List Char) :
    Covers (.token .number) front rest := by
  obtain ⟨whole, hne, hwhole, hshape⟩ := mem_number_iff.mp hfront
  obtain ⟨c, digits, rfl⟩ := List.exists_cons_of_ne_nil hne
  obtain ⟨tail, rfl⟩ : ∃ tail, front = c :: tail := by
    rcases hshape with rfl | ⟨digits, -, -, rfl⟩
    · exact ⟨_, rfl⟩
    · exact ⟨_, rfl⟩
  exact covers_of_measure? (measure?_number (hwhole c List.mem_cons_self))
    (length_le_numberLength hfront rest)

theorem covers_of_quotedWith (hquote : quote = '"' ∨ quote = '\'')
    (hfront : front ∈ LexemeKind.quotedWith quote) (rest : List Char) :
    Covers (.token .text) front rest := by
  obtain ⟨body, hbody, rfl⟩ := mem_quotedWith_iff.mp hfront
  have hslash : quote ≠ '\\' := by
    rcases hquote with rfl | rfl <;> decide
  refine covers_of_measure? (n := body.length + 1 + 1) ?_ (by simp)
  rw [List.cons_append, List.cons_append, List.append_assoc, measure?_quoted hquote,
    List.singleton_append, quotedLength?_of_mem hslash hbody]
  rfl

theorem covers_of_blank (hfront : front ∈ LexemeKind.language .blank) (rest : List Char) :
    Covers .blank front rest := by
  obtain ⟨hne, hall⟩ := mem_blank_iff.mp hfront
  obtain ⟨c, blanks, rfl⟩ := List.exists_cons_of_ne_nil hne
  rw [List.forall_mem_cons] at hall
  refine covers_of_measure? (measure?_blank hall.1) ?_
  change blanks.length + 1 ≤ ((blanks ++ rest).takeWhile isBlank).length + 1
  rw [List.takeWhile_append_of_pos hall.2]
  simp

theorem covers_of_lineComment (hfront : front ∈ LexemeKind.language .lineComment) (rest : List Char) :
    Covers .lineComment front rest := by
  obtain ⟨line, rfl, hline⟩ := mem_lineComment_iff.mp hfront
  refine covers_of_measure? (measure?_lineComment _) ?_
  change line.length + 2 ≤ ((line ++ rest).takeWhile (· ≠ '\n')).length + 2
  rw [List.takeWhile_append_of_pos fun c hc => decide_eq_true (hline c hc)]
  simp

theorem covers_of_blockComment (hfront : front ∈ LexemeKind.language .blockComment) (rest : List Char) :
    Covers .blockComment front rest := by
  obtain ⟨body, hbody, k, rfl⟩ := mem_blockComment_iff.mp hfront
  refine covers_of_measure? (n := body.length + k + 2 + 2) ?_ (by simp; omega)
  rw [List.cons_append, List.cons_append, measure?_blockComment, List.append_assoc, List.append_assoc,
    List.singleton_append, commentLength?_of_mem hbody]
  rfl

/-- No text of a language is longer than what is measured. -/
theorem covers_of_mem (hfront : front ∈ kind.language) (rest : List Char) : Covers kind front rest := by
  cases kind with
  | token kind =>
      cases kind with
      | parenOpen => exact covers_of_punctuation? hfront rfl rest
      | parenClose => exact covers_of_punctuation? hfront rfl rest
      | bracketOpen => exact covers_of_punctuation? hfront rfl rest
      | bracketClose => exact covers_of_punctuation? hfront rfl rest
      | comma => exact covers_of_punctuation? hfront rfl rest
      | dot => exact covers_of_punctuation? hfront rfl rest
      | semicolon => exact covers_of_punctuation? hfront rfl rest
      | equals => exact covers_of_punctuation? hfront rfl rest
      | plus => exact covers_of_punctuation? hfront rfl rest
      | declare => exact covers_of_keyword (by decide) hfront rest
      | yes => exact covers_of_keyword (by decide) hfront rest
      | no => exact covers_of_keyword (by decide) hfront rest
      | name => exact covers_of_word hfront (Or.inl rfl) rest
      | number => exact covers_of_number hfront rest
      | text =>
          rcases hfront with hdouble | hsingle
          · exact covers_of_quotedWith (Or.inl rfl) hdouble rest
          · exact covers_of_quotedWith (Or.inr rfl) hsingle rest
  | blank => exact covers_of_blank hfront rest
  | lineComment => exact covers_of_lineComment hfront rest
  | blockComment => exact covers_of_blockComment hfront rest

end Lexeme

end AssetPipeline.Script
