import AssetPipeline.Proofs.Script.Relocation
import AssetPipeline.Proofs.Script.Spacing

/-! Layout does not matter. Two sources with the same words at different places declare the same, or the
same is wrong with both, at the same word or at the end. -/

namespace AssetPipeline

namespace Script

variable {source source' : String} {tokens tokens' : List Token} {fault : Fault}

/-- Where something can be wrong with the tokens of a source: at each of them and at its end. -/
def places (source : String) (tokens : List Token) : List Nat :=
  tokens.map Token.start ++ [source.utf8ByteSize]

theorem length_places (source : String) (tokens : List Token) :
    (places source tokens).length = tokens.length + 1 := by
  rw [places, List.length_append, List.length_map, List.length_singleton]

theorem TokensOf.pairwise_places (h : TokensOf source tokens) :
    (places source tokens).Pairwise (· < ·) := by
  rw [places, List.pairwise_append, List.pairwise_map]
  refine ⟨?_, List.pairwise_singleton _ _, ?_⟩
  · exact h.ordered.imp_of_mem fun ht _ hstop => Nat.lt_of_lt_of_le (h.start_lt_stop ht) hstop
  · intro start hstart stop hstop
    obtain ⟨t, ht, rfl⟩ := List.mem_map.mp hstart
    rw [List.mem_singleton.mp hstop]
    exact Nat.lt_of_lt_of_le (h.start_lt_stop ht) (h.stop_le ht)

/-- The place in another source that has as many places before it. -/
def move (places places' : List Nat) (offset : Nat) : Nat :=
  places'[places.idxOf offset]?.getD 0

theorem move_getElem {places : List Nat} (places' : List Nat) (h : places.Nodup) {i : Nat}
    (hi : i < places.length) (hi' : i < places'.length) : move places places' places[i] = places'[i] := by
  rw [move, h.idxOf_getElem i hi, List.getElem?_eq_getElem hi', Option.getD_some]

section Moving

variable (source' : String) (h : TokensOf source tokens)
  (hsame : List.Forall₂ Token.SameWord tokens tokens')
include h hsame

/-- The same words at other places are the tokens, moved. -/
theorem map_moved_eq :
    tokens.map (Token.moved (move (places source tokens) (places source' tokens'))) = tokens' := by
  have hlength := hsame.length_eq
  have hnodup : (places source tokens).Nodup := h.pairwise_places.imp Nat.ne_of_lt
  refine List.ext_getElem (by rw [List.length_map, hlength]) fun i hi hi' => ?_
  rw [List.length_map] at hi
  obtain ⟨hkind, htext⟩ := (List.forall₂_iff_get.mp hsame).2 i hi hi'
  have hstart := move_getElem (places source' tokens') hnodup (i := i)
    (by rw [length_places]; omega) (by rw [length_places]; omega)
  simp only [places, List.getElem_append_left, List.length_map, hi, hi', List.getElem_map] at hstart
  rw [List.getElem_map, Token.moved, Token.mk.injEq]
  exact ⟨hkind, htext, hstart⟩

theorem move_end :
    move (places source tokens) (places source' tokens') source.utf8ByteSize = source'.utf8ByteSize := by
  have hlength := hsame.length_eq
  have hnodup : (places source tokens).Nodup := h.pairwise_places.imp Nat.ne_of_lt
  have hend := move_getElem (places source' tokens') hnodup (i := tokens.length)
    (by rw [length_places]; omega) (by rw [length_places]; omega)
  simpa [places, hlength] using hend

end Moving

/-- The same place in two sources: where the tokens with one index start, or the ends. -/
def SamePlace (source source' : String) (tokens tokens' : List Token) (offset offset' : Nat) : Prop :=
  (∃ (i : Nat) (t t' : Token), tokens[i]? = some t ∧ tokens'[i]? = some t' ∧ t.start = offset ∧
    t'.start = offset') ∨
  (offset = source.utf8ByteSize ∧ offset' = source'.utf8ByteSize)

/-- The place is where a token starts or where the source ends, and it is neither inside a token nor
inside a character. -/
structure Pointed (source : String) (tokens : List Token) (offset : Nat) : Prop where
  starts : offset = source.utf8ByteSize ∨ ∃ t ∈ tokens, t.start = offset
  outside : ∀ t ∈ tokens, offset ≤ t.start ∨ t.stop ≤ offset
  between : ∃ before after, source.toList = before ++ after ∧ offset = byteLength before

theorem declarations_eq_declared (h : tokenize source = .ok tokens) :
    parse source >>= declarations = declared source.utf8ByteSize tokens := by
  rw [parse, h]
  rfl

theorem TokensOf.pointed (h : TokensOf source tokens)
    (hfault : declared source.utf8ByteSize tokens = .error fault) :
    Pointed source tokens fault.offset := by
  have hstarts := offset_of_declared hfault
  refine ⟨hstarts, fun t ht => ?_, ?_⟩
  · rcases hstarts with hend | ⟨u, hu, hstart⟩
    · exact Or.inr (hend ▸ h.stop_le ht)
    · have hinside := h.start_lt_stop hu
      rcases h.eq_or_apart ht hu with rfl | hbefore | hbehind
      · exact Or.inl hstart.ge
      · exact Or.inr (hstart ▸ hbefore)
      · exact Or.inl (by omega)
  · rcases hstarts with hend | ⟨u, hu, hstart⟩
    · exact ⟨source.toList, [], (List.append_nil _).symm, hend.trans (utf8ByteSize_eq source)⟩
    · obtain ⟨before, after, htext, hbefore⟩ := h.standsIn u hu
      exact ⟨before, _, htext, hstart.symm.trans hbefore⟩

/-- What is declared in one layout is declared in the other, and what is wrong in one is wrong in the
other at the same place. -/
theorem declared_layout (h : TokensOf source tokens)
    (hsame : List.Forall₂ Token.SameWord tokens tokens') :
    (∃ d, declared source.utf8ByteSize tokens = .ok d ∧ declared source'.utf8ByteSize tokens' = .ok d) ∨
      ∃ problem offset offset', SamePlace source source' tokens tokens' offset offset' ∧
        declared source.utf8ByteSize tokens = .error ⟨offset, problem⟩ ∧
        declared source'.utf8ByteSize tokens' = .error ⟨offset', problem⟩ := by
  have hmoved := declared_moved (move (places source tokens) (places source' tokens'))
    source.utf8ByteSize tokens
  rw [map_moved_eq source' h hsame, move_end source' h hsame] at hmoved
  cases hdeclared : declared source.utf8ByteSize tokens with
  | ok d =>
      rw [hdeclared, relocate_ok] at hmoved
      exact Or.inl ⟨d, rfl, hmoved⟩
  | error fault =>
      obtain ⟨offset, problem⟩ := fault
      rw [hdeclared, relocate_error] at hmoved
      refine Or.inr ⟨problem, offset, _, ?_, rfl, hmoved⟩
      rcases offset_of_declared hdeclared with rfl | ⟨t, ht, rfl⟩
      · exact Or.inr ⟨rfl, move_end source' h hsame⟩
      · obtain ⟨i, hi, rfl⟩ := List.getElem_of_mem ht
        have hi' : i < tokens'.length := hsame.length_eq ▸ hi
        refine Or.inl ⟨i, tokens[i], tokens'[i], List.getElem?_eq_getElem hi,
          List.getElem?_eq_getElem hi', rfl, ?_⟩
        have hget := List.getElem_of_eq (map_moved_eq source' h hsame).symm hi'
        rw [hget, List.getElem_map, Token.start_moved]

end Script

open Script

/-- Of two sources with the same words at different places both declare the same, or the same is wrong
with both at the same place. Whatever is wrong with a source that can be read, it is wrong at a token or
at the end. And single spaces between the words make such another source. -/
theorem evaluate_layout (source : String) (tokens : List Token) (h : tokenize source = .ok tokens) :
    (∀ source' tokens', tokenize source' = .ok tokens' → List.Forall₂ Token.SameWord tokens tokens' →
      (∃ d, evaluate source = .ok d ∧ evaluate source' = .ok d) ∨
      ∃ problem offset offset', SamePlace source source' tokens tokens' offset offset' ∧
        evaluate source = .error ((⟨offset, problem⟩ : Fault).locate source) ∧
        evaluate source' = .error ((⟨offset', problem⟩ : Fault).locate source')) ∧
    (∀ fault, parse source >>= declarations = .error fault → Pointed source tokens fault.offset) ∧
    ∃ spaced, tokenize (" ".intercalate (tokens.map Token.text)) = .ok spaced ∧
      List.Forall₂ Token.SameWord tokens spaced := by
  have htokens := tokensOf h
  refine ⟨fun source' tokens' h' hsame => ?_, fun fault hfault => ?_, ?_⟩
  · rw [evaluate, evaluate, declarations_eq_declared h, declarations_eq_declared h']
    rcases declared_layout htokens hsame with ⟨d, hd, hd'⟩ | ⟨problem, offset, offset', hplace, hd, hd'⟩
    · rw [hd, hd']
      exact Or.inl ⟨d, rfl, rfl⟩
    · rw [hd, hd']
      exact Or.inr ⟨problem, offset, offset', hplace, rfl, rfl⟩
  · rw [declarations_eq_declared h] at hfault
    exact htokens.pointed hfault
  · obtain ⟨spaced, hspaced, hsame⟩ := scans_spaced htokens.stands 0
    refine ⟨spaced, ?_, hsame⟩
    rw [tokenize_eq_ok_iff, String.toList_intercalate, List.map_map]
    exact hspaced

theorem evaluate_layout_commented :
    (∃ d, evaluate "a;" = .ok d ∧ evaluate "/**/ a\n;" = .ok d) ∨
      ∃ problem offset offset', SamePlace "a;" "/**/ a\n;" [⟨.name, "a", 0⟩, ⟨.semicolon, ";", 1⟩]
        [⟨.name, "a", 5⟩, ⟨.semicolon, ";", 7⟩] offset offset' ∧
        evaluate "a;" = .error ((⟨offset, problem⟩ : Fault).locate "a;") ∧
        evaluate "/**/ a\n;" = .error ((⟨offset', problem⟩ : Fault).locate "/**/ a\n;") := by
  refine (evaluate_layout "a;" _ (by decide +kernel)).1 "/**/ a\n;" _ (by decide +kernel) ?_
  exact .cons ⟨rfl, rfl⟩ (.cons ⟨rfl, rfl⟩ .nil)

end AssetPipeline
