import AssetPipeline.Proofs.Script.LongestMatch
import AssetPipeline.Proofs.Script.Relocation
import Mathlib.Algebra.Group.Even
import Mathlib.Data.List.DropRight

/-! Strings between quotes. A string that is written with its quotes is read as one token, whatever stands
behind it, and stands for what was written. What a string token has between its quotes falls into pieces in
one way only, and the token stands for one character for each of them. -/

namespace AssetPipeline.Script

namespace Literal

variable {quote : Char} {pieces front : List Piece} {text rest : List Char}

/-! ### One way to fall into pieces -/

theorem Piece.text_append_inj {piece piece' : Piece} (h : piece.text ++ text = piece'.text ++ rest) :
    piece = piece' ∧ text = rest := by
  cases piece with
  | plain c hc =>
      cases piece' with
      | plain d hd =>
          cases h
          exact ⟨rfl, rfl⟩
      | escape d =>
          cases h
          exact absurd rfl hc
  | escape c =>
      cases piece' with
      | plain d hd =>
          cases h
          exact absurd rfl hd
      | escape d =>
          cases h
          exact ⟨rfl, rfl⟩

theorem Piece.text_ne_nil (piece : Piece) : piece.text ≠ [] := by
  cases piece <;> exact List.cons_ne_nil _ _

/-- Pieces at the front of others are the first of them. -/
theorem exists_of_flatMap_eq_append
    (h : pieces.flatMap Piece.text = front.flatMap Piece.text ++ rest) :
    ∃ behind, pieces = front ++ behind ∧ rest = behind.flatMap Piece.text := by
  induction front generalizing pieces with
  | nil => exact ⟨pieces, rfl, h.symm⟩
  | cons piece front ih =>
      cases pieces with
      | nil =>
          rw [List.flatMap_nil, List.flatMap_cons, List.append_assoc, eq_comm,
            List.append_eq_nil_iff] at h
          exact absurd h.1 piece.text_ne_nil
      | cons first pieces =>
          rw [List.flatMap_cons, List.flatMap_cons, List.append_assoc] at h
          obtain ⟨rfl, hrest⟩ := Piece.text_append_inj h
          obtain ⟨behind, rfl, hbehind⟩ := ih hrest
          exact ⟨behind, rfl, hbehind⟩

theorem flatMap_text_injective : Function.Injective (List.flatMap Piece.text) := by
  intro pieces front h
  obtain ⟨behind, rfl, hbehind⟩ := exists_of_flatMap_eq_append (h.trans (List.append_nil _).symm)
  cases behind with
  | nil => rw [List.append_nil]
  | cons piece behind =>
      rw [eq_comm, List.flatMap_cons, List.append_eq_nil_iff] at hbehind
      exact absurd hbehind.1 piece.text_ne_nil

/-- No backslash is left behind the last piece. -/
theorem flatMap_text_ne_append_slash (pieces front : List Piece) :
    pieces.flatMap Piece.text ≠ front.flatMap Piece.text ++ ['\\'] := by
  intro h
  obtain ⟨behind, -, hbehind⟩ := exists_of_flatMap_eq_append h
  cases behind with
  | nil => cases hbehind
  | cons piece behind =>
      rw [List.flatMap_cons] at hbehind
      cases piece with
      | plain c hc => exact hc (List.cons.inj hbehind).1.symm
      | escape c => exact List.cons_ne_nil _ _ (List.cons.inj hbehind).2.symm

/-- Backslashes at the end stand in pairs. -/
theorem even_rtakeWhile (pieces : List Piece) :
    Even ((pieces.flatMap Piece.text).rtakeWhile (· = '\\')).length := by
  induction pieces using List.reverseRecOn with
  | nil => exact Even.zero
  | append_singleton pieces piece ih =>
      rw [List.flatMap_append, List.flatMap_singleton]
      cases piece with
      | plain c hc =>
          rw [Piece.text, List.rtakeWhile_concat_neg _ _ _ (by simp [hc])]
          exact Even.zero
      | escape c =>
          rw [Piece.text, ← List.singleton_append, ← List.append_assoc, List.rtakeWhile_concat]
          split_ifs with hc
          · rw [List.rtakeWhile_concat_pos (fun x => decide (x = '\\')) _ _ rfl, List.length_append,
              List.length_append, List.length_singleton, List.length_singleton, Nat.add_assoc]
            exact ih.add ⟨1, rfl⟩
          · exact Even.zero

/-! ### Written strings -/

theorem toList_write (quote : Char) (text : String) :
    (write quote text).toList =
      quote :: ((text.toList.map (Piece.ofChar quote)).flatMap Piece.text ++ [quote]) := by
  rw [write, String.toList_ofList, flatMap_ofChar]

theorem decode_toList (quote : Char) (pieces : List Piece) :
    decode ((quote :: (pieces.flatMap Piece.text ++ [quote])).drop 1).dropLast =
      pieces.map Piece.value := by
  rw [List.drop_one, List.tail_cons, List.dropLast_concat, decode_flatMap]

theorem unquote_write (hquote : quote = '"' ∨ quote = '\'') (text : String) :
    unquote (write quote text) = text := by
  rw [unquote, toList_write, decode_toList, map_value_ofChar hquote, String.ofList_toList]

theorem measure?_write (hquote : quote = '"' ∨ quote = '\'') (text rest : String) :
    Lexeme.measure? (write quote text ++ rest).toList =
      some (.token .text, (write quote text).length) := by
  have hslash : quote ≠ '\\' := by
    rcases hquote with rfl | rfl <;> decide
  rw [String.toList_append, ← String.length_toList, toList_write, List.cons_append, List.append_assoc,
    List.singleton_append, Lexeme.measure?_quoted hquote,
    quotedLength?_flatMap hslash (fits_of_mem_map_ofChar hquote text.toList)]
  simp

end Literal

open Literal (Piece)

/-! ### Behind the first token -/

theorem placeTokens_add (offset n : Nat) (read : List Lexeme) :
    placeTokens (offset + n) read = (placeTokens offset read).map (Token.moved (· + n)) := by
  fun_induction placeTokens offset read with
  | case1 => rfl
  | case2 offset kind text read ih =>
      rw [placeTokens, List.map_cons, ← ih, Nat.add_right_comm]
      rfl
  | case3 offset kind text read hkind ih =>
      rw [← ih, Nat.add_right_comm]
      cases kind with
      | token kind => exact absurd rfl (hkind kind)
      | blank => rfl
      | lineComment => rfl
      | blockComment => rfl

/-- A source that begins with a token has this token, and behind it what the rest of it has. -/
theorem tokenize_append {kind : TokenKind} {front rest : String}
    (h : Lexeme.measure? (front ++ rest).toList = some (.token kind, front.length)) :
    tokenize (front ++ rest) = relocate (· + front.utf8ByteSize)
      (fun tokens => ⟨kind, front, 0⟩ :: tokens.map (Token.moved (· + front.utf8ByteSize)))
      (tokenize rest) := by
  rw [String.toList_append, ← String.length_toList] at h
  rw [tokenize, tokenize, String.toList_append, lexemes_append h, utf8ByteSize_eq]
  generalize lexemes rest.toList = read
  obtain ⟨read, left⟩ := read
  cases left with
  | nil =>
      dsimp only
      rw [relocate_ok, ← placeTokens_add, placeTokens, String.ofList_toList]
  | cons c left =>
      dsimp only
      rw [relocate_error, Fault.moved, List.flatMap_cons, byteLength_append, Nat.add_comm]

/-! ### String tokens -/

/-- The text of a token is a string between two quotes of one sort, which falls into these pieces. -/
structure Cut (raw : String) (quote : Char) (body : String) (pieces : List Piece) : Prop where
  quote_eq : quote = '"' ∨ quote = '\''
  raw_eq : raw = String.singleton quote ++ body ++ String.singleton quote
  body_eq : body.toList = pieces.flatMap Piece.text
  fits : ∀ piece ∈ pieces, piece.Fits quote

namespace Cut

variable {raw body : String} {quote : Char} {pieces : List Piece}

theorem utf8Size_quote (h : Cut raw quote body pieces) : quote.utf8Size = 1 := by
  rcases h.quote_eq with rfl | rfl <;> rfl

theorem utf8ByteSize_eq (h : Cut raw quote body pieces) :
    raw.utf8ByteSize = 1 + body.utf8ByteSize + 1 := by
  rw [h.raw_eq, String.utf8ByteSize_append, String.utf8ByteSize_append, String.utf8ByteSize_singleton,
    h.utf8Size_quote]

theorem isValid_opening (h : Cut raw quote body pieces) : String.Pos.Raw.IsValid raw ⟨1⟩ := by
  refine String.Pos.Raw.isValid_iff_exists_append.mpr
    ⟨String.singleton quote, body ++ String.singleton quote, ?_, ?_⟩
  · rw [h.raw_eq, String.append_assoc]
  · rw [String.Pos.Raw.ext_iff, String.byteIdx_rawEndPos, String.utf8ByteSize_singleton, h.utf8Size_quote]

theorem isValid_closing (h : Cut raw quote body pieces) :
    String.Pos.Raw.IsValid raw ⟨raw.utf8ByteSize - 1⟩ := by
  refine String.Pos.Raw.isValid_iff_exists_append.mpr
    ⟨String.singleton quote ++ body, String.singleton quote, h.raw_eq, ?_⟩
  rw [String.Pos.Raw.ext_iff, String.byteIdx_rawEndPos, String.utf8ByteSize_append,
    String.utf8ByteSize_singleton, h.utf8Size_quote, h.utf8ByteSize_eq, Nat.add_sub_cancel]

/-- The bytes between the quotes. -/
theorem extract_eq (h : Cut raw quote body pieces) :
    raw.toByteArray.extract 1 (raw.utf8ByteSize - 1) = body.toByteArray := by
  have hquote : (String.singleton quote).toByteArray.size = 1 := by
    rw [String.size_toByteArray, String.utf8ByteSize_singleton, h.utf8Size_quote]
  have hfront : (String.singleton quote).toByteArray.extract 1 (1 + body.utf8ByteSize) = .empty := by
    rw [ByteArray.extract_eq_empty_iff, hquote]
    exact Nat.min_le_right _ _
  rw [h.utf8ByteSize_eq, Nat.add_sub_cancel, h.raw_eq, String.append_assoc, String.toByteArray_append,
    ByteArray.extract_append, hfront, ByteArray.empty_append, hquote, Nat.sub_self,
    Nat.add_sub_cancel_left, String.toByteArray_append]
  exact ByteArray.extract_append_eq_left String.size_toByteArray.symm

theorem unquote_eq (h : Cut raw quote body pieces) :
    Literal.unquote raw = String.ofList (pieces.map Piece.value) := by
  have hraw : raw.toList = quote :: (pieces.flatMap Piece.text ++ [quote]) := by
    rw [h.raw_eq, String.toList_append, String.toList_append, String.toList_singleton, h.body_eq]
    rfl
  rw [Literal.unquote, hraw, Literal.decode_toList]

end Cut

theorem TokensOf.mem_language {source : String} {tokens : List Token} (h : TokensOf source tokens)
    {t : Token} (ht : t ∈ tokens) : t.text.toList ∈ LexemeKind.language (.token t.kind) := by
  have hmeasure := h.stands t ht [] Lexeme.apart_nil
  rw [List.append_nil] at hmeasure
  obtain ⟨front, tail, htext, hlength, hmem⟩ := Lexeme.exists_of_measure? hmeasure
  rw [← List.append_nil t.text.toList] at htext
  rwa [List.append_inj_left htext hlength.symm]

theorem exists_cut {raw : String} (h : raw.toList ∈ LexemeKind.language (.token .text)) :
    ∃ quote body pieces, Cut raw quote body pieces := by
  have hquoted : ∀ quote, (quote = '"' ∨ quote = '\'') → raw.toList ∈ LexemeKind.quotedWith quote →
      ∃ quote body pieces, Cut raw quote body pieces := by
    intro quote hquote hmem
    obtain ⟨body, hbody, hraw⟩ := Lexeme.mem_quotedWith_iff.mp hmem
    obtain ⟨pieces, hfits, hpieces⟩ := Lexeme.mem_inside_iff.mp hbody
    refine ⟨quote, String.ofList body, pieces, hquote, ?_, ?_, hfits⟩
    · rw [String.ext_iff, hraw]
      simp
    · rw [String.toList_ofList, hpieces]
  rcases h with hdouble | hsingle
  · exact hquoted '"' (Or.inl rfl) hdouble
  · exact hquoted '\'' (Or.inr rfl) hsingle

/-- A string that is written between quotes of either sort is the first token of every source that begins
with it, just as far as it goes, and stands for what was written. In every string token the bytes between
the quotes are whole characters and fall into pieces in one way only, with no backslash left over at the
end, and the token stands for one character for each piece. -/
theorem strings_read_back :
    (∀ (quote : Char) (text rest : String), quote = '"' ∨ quote = '\'' →
      Lexeme.measure? (Literal.write quote text ++ rest).toList =
        some (.token .text, (Literal.write quote text).length) ∧
      tokenize (Literal.write quote text ++ rest) =
        relocate (· + (Literal.write quote text).utf8ByteSize)
          (fun tokens => ⟨.text, Literal.write quote text, 0⟩ ::
            tokens.map (Token.moved (· + (Literal.write quote text).utf8ByteSize)))
          (tokenize rest) ∧
      Literal.unquote (Literal.write quote text) = text) ∧
    ∀ source tokens, tokenize source = .ok tokens → ∀ t ∈ tokens, t.kind = .text →
      ∃ quote body pieces, Cut t.text quote body pieces ∧
        String.Pos.Raw.IsValid t.text ⟨1⟩ ∧
        String.Pos.Raw.IsValid t.text ⟨t.text.utf8ByteSize - 1⟩ ∧
        t.text.utf8ByteSize = 1 + body.utf8ByteSize + 1 ∧
        t.text.toByteArray.extract 1 (t.text.utf8ByteSize - 1) = body.toByteArray ∧
        (∀ front : List Piece, body.toList ≠ front.flatMap Piece.text ++ ['\\']) ∧
        Even (body.toList.rtakeWhile (· = '\\')).length ∧
        (∀ pieces', body.toList = pieces'.flatMap Piece.text → pieces' = pieces) ∧
        Literal.unquote t.text = String.ofList (pieces.map Piece.value) ∧
        (Literal.unquote t.text).length = pieces.length := by
  refine ⟨fun quote text rest hquote => ?_, fun source tokens h t ht hkind => ?_⟩
  · have hmeasure := Literal.measure?_write hquote text rest
    exact ⟨hmeasure, tokenize_append hmeasure, Literal.unquote_write hquote text⟩
  · have hmem := (tokensOf h).mem_language ht
    rw [hkind] at hmem
    obtain ⟨quote, body, pieces, hcut⟩ := exists_cut hmem
    have hunique : ∀ pieces', body.toList = pieces'.flatMap Piece.text → pieces' = pieces := by
      intro pieces' hpieces'
      exact Literal.flatMap_text_injective (hpieces'.symm.trans hcut.body_eq)
    refine ⟨quote, body, pieces, hcut, hcut.isValid_opening, hcut.isValid_closing, hcut.utf8ByteSize_eq,
      hcut.extract_eq, fun front => ?_, ?_, hunique, hcut.unquote_eq, ?_⟩
    · rw [hcut.body_eq]
      exact Literal.flatMap_text_ne_append_slash pieces front
    · rw [hcut.body_eq]
      exact Literal.even_rtakeWhile pieces
    · rw [hcut.unquote_eq, String.length_ofList, List.length_map]

/-- A backslash, the quote, a character of two bytes, a line feed and the other quote. -/
theorem strings_read_back_awkward :
    Literal.write '\'' "\\'é\n\"" = "'\\\\\\'é\\n\"'" ∧
      tokenize "'\\\\\\'é\\n\"'" = .ok [⟨.text, "'\\\\\\'é\\n\"'", 0⟩] ∧
      Literal.unquote "'\\\\\\'é\\n\"'" = "\\'é\n\"" ∧
      ∃ quote body pieces, Cut "'\\\\\\'é\\n\"'" quote body pieces ∧ pieces.length = 5 := by
  have hwrite : Literal.write '\'' "\\'é\n\"" = "'\\\\\\'é\\n\"'" := by decide
  obtain ⟨hwritten, hcuts⟩ := strings_read_back
  obtain ⟨-, htokens, hunquote⟩ := hwritten '\'' "\\'é\n\"" "" (Or.inr rfl)
  have hempty : tokenize "" = .ok [] := by
    rw [tokenize, String.toList_empty, lexemes]
    rfl
  rw [hwrite, String.append_empty, hempty] at htokens
  rw [hwrite] at hunquote
  obtain ⟨quote, body, pieces, hcut, -, -, -, -, -, -, -, -, hlength⟩ :=
    hcuts _ _ htokens _ List.mem_cons_self rfl
  rw [hunquote] at hlength
  exact ⟨hwrite, htokens, hunquote, quote, body, pieces, hcut, hlength.symm.trans (by decide)⟩

end AssetPipeline.Script
