import AssetPipeline.Script.Lexeme
import AssetPipeline.Script.Literal
import Mathlib.Tactic.SplitIfs

/-! What stands between two quotes: characters, and backslashes with the character behind them. Where a
string ends and what it stands for both go by these pieces. -/

namespace AssetPipeline.Script.Literal

/-- A character that stands for itself, or a backslash with the character behind it. -/
inductive Piece where
  | plain (c : Char) (h : c ≠ '\\')
  | escape (c : Char)

/-- A character as it is written between quotes of one sort. -/
def writeChar (quote c : Char) : List Char :=
  if c = '\\' ∨ c = quote then ['\\', c] else if c = '\n' then ['\\', 'n'] else [c]

/-- A string as it is written, with its quotes. -/
def write (quote : Char) (text : String) : String :=
  String.ofList (quote :: (text.toList.flatMap (writeChar quote) ++ [quote]))

namespace Piece

def text : Piece → List Char
  | plain c _ => [c]
  | escape c => ['\\', c]

/-- The character that the piece stands for. -/
def value : Piece → Char
  | plain c _ => c
  | escape c => unescape c

/-- The piece may stand between quotes of this sort. -/
def Fits (quote : Char) : Piece → Prop
  | plain c _ => c ≠ quote ∧ c ≠ '\n'
  | escape c => c ≠ '\n'

/-- The piece that a character is written as. -/
def ofChar (quote c : Char) : Piece :=
  if h : c = '\\' ∨ c = quote then escape c
  else if c = '\n' then escape 'n'
  else plain c (not_or.mp h).1

variable {quote : Char}

theorem text_ofChar (quote c : Char) : (ofChar quote c).text = writeChar quote c := by
  rw [ofChar, writeChar]
  split_ifs <;> rfl

theorem fits_ofChar (hquote : quote = '"' ∨ quote = '\'') (c : Char) : (ofChar quote c).Fits quote := by
  rw [ofChar]
  split_ifs with hescaped hfeed
  · rintro rfl
    revert hescaped
    rcases hquote with rfl | rfl <;> decide
  · exact (by decide : 'n' ≠ '\n')
  · exact ⟨(not_or.mp hescaped).2, hfeed⟩

theorem value_ofChar (hquote : quote = '"' ∨ quote = '\'') (c : Char) : (ofChar quote c).value = c := by
  rw [ofChar]
  split_ifs with hescaped hfeed
  · rcases hescaped with rfl | rfl
    · rfl
    · rcases hquote with rfl | rfl <;> rfl
  · exact hfeed.symm
  · rfl

end Piece

open Piece (ofChar)

variable {quote : Char} {pieces : List Piece} {body text : List Char} {n : Nat}

theorem flatMap_ofChar (quote : Char) (text : List Char) :
    (text.map (ofChar quote)).flatMap Piece.text = text.flatMap (writeChar quote) := by
  rw [List.flatMap_map]
  simp only [Piece.text_ofChar]

theorem map_value_ofChar (hquote : quote = '"' ∨ quote = '\'') (text : List Char) :
    (text.map (ofChar quote)).map Piece.value = text := by
  rw [List.map_map]
  exact (List.map_congr_left fun c _ => Piece.value_ofChar hquote c).trans (List.map_id text)

theorem fits_of_mem_map_ofChar (hquote : quote = '"' ∨ quote = '\'') (text : List Char) :
    ∀ piece ∈ text.map (ofChar quote), piece.Fits quote := by
  rw [List.forall_mem_map]
  exact fun c _ => Piece.fits_ofChar hquote c

/-! ### Reading by pieces -/

theorem decode_flatMap (pieces : List Piece) :
    decode (pieces.flatMap Piece.text) = pieces.map Piece.value := by
  induction pieces with
  | nil => rfl
  | cons piece pieces ih =>
      rw [List.flatMap_cons, List.map_cons, ← ih]
      cases piece with
      | plain c h =>
          rw [Piece.text, List.singleton_append, decode, Piece.value]
          · rintro rfl
            exact absurd rfl h
          · rintro d body rfl
            exact absurd rfl h
      | escape c => rfl

/-- The string ends at the first quote that no piece takes. -/
theorem quotedLength?_flatMap (hquote : quote ≠ '\\') (hfits : ∀ piece ∈ pieces, piece.Fits quote)
    (rest : List Char) : Lexeme.quotedLength? quote (pieces.flatMap Piece.text ++ quote :: rest) =
      some ((pieces.flatMap Piece.text).length + 1) := by
  induction pieces with
  | nil =>
      rw [List.flatMap_nil, List.nil_append, Lexeme.quotedLength?, if_pos rfl]
      · rfl
      · exact fun _ _ hslash _ => hquote hslash
  | cons piece pieces ih =>
      rw [List.forall_mem_cons] at hfits
      rw [List.flatMap_cons, List.append_assoc]
      cases piece with
      | plain c h =>
          obtain ⟨hend, hfeed⟩ : c ≠ quote ∧ c ≠ '\n' := hfits.1
          rw [Piece.text, List.singleton_append, Lexeme.quotedLength?, if_neg hend,
            if_neg (not_or.mpr ⟨hfeed, h⟩), ih hfits.2]
          · rfl
          · exact fun _ _ hslash _ => h hslash
      | escape c =>
          have hfeed : c ≠ '\n' := hfits.1
          rw [Piece.text, List.cons_append, List.singleton_append, Lexeme.quotedLength?, if_neg hfeed,
            ih hfits.2]
          simp

/-- What is read as a string falls into pieces. -/
theorem exists_pieces (h : Lexeme.quotedLength? quote text = some n) :
    ∃ (pieces : List Piece) (tail : List Char), (∀ piece ∈ pieces, piece.Fits quote) ∧
      text = pieces.flatMap Piece.text ++ quote :: tail ∧ n = (pieces.flatMap Piece.text).length + 1 := by
  fun_induction Lexeme.quotedLength? quote text generalizing n with
  | case1 => cases h
  | case2 text => cases h
  | case3 c text hc ih =>
      obtain ⟨m, hm, rfl⟩ := Option.map_eq_some_iff.mp h
      obtain ⟨pieces, tail, hfits, rfl, rfl⟩ := ih hm
      exact ⟨.escape c :: pieces, tail, List.forall_mem_cons.mpr ⟨hc, hfits⟩, rfl, rfl⟩
  | case4 text =>
      cases h
      exact ⟨[], text, List.forall_mem_nil _, rfl, rfl⟩
  | case5 => cases h
  | case6 c text _ hc hplain ih =>
      obtain ⟨m, hm, rfl⟩ := Option.map_eq_some_iff.mp h
      obtain ⟨pieces, tail, hfits, rfl, rfl⟩ := ih hm
      rw [not_or] at hplain
      exact ⟨.plain c hplain.2 :: pieces, tail,
        List.forall_mem_cons.mpr ⟨⟨hc, hplain.1⟩, hfits⟩, rfl, rfl⟩

end AssetPipeline.Script.Literal
