import AssetPipeline.Proofs.Glob.Laying

/-! One `?` among characters that stand for themselves. It stands for a byte, and a byte between whole
characters is a character of its own. So `?` stands for the characters of one byte, and for no others. -/

namespace AssetPipeline.Glob

variable {c : Char} {previous : Option Char} {branch : List Token} {rest u v w : List Char}

/-- A character that stands for itself outside of classes and braces. -/
def StandsForItself (c : Char) : Prop :=
  c ∉ ['?', '*', '[', '{', '}', '\\']

instance (c : Char) : Decidable (StandsForItself c) :=
  inferInstanceAs (Decidable (c ∉ _))

/-! ### Reading -/

theorem readTokens_self (hc : StandsForItself c) :
    readTokens previous ⟨branch, []⟩ (c :: rest) = readTokens (some c) ⟨.literal c :: branch, []⟩ rest := by
  simp only [StandsForItself, List.mem_cons, not_or] at hc
  by_cases hcomma : c = ','
  · subst hcomma
    rw [readTokens]
    rfl
  · rw [readTokens] <;> simp [hc, hcomma, Progress.push]

theorem exists_readTokens_selves (hu : ∀ c ∈ u, StandsForItself c) : ∃ previous',
    readTokens previous ⟨branch, []⟩ (u ++ rest) =
      readTokens previous' ⟨(u.map Token.literal).reverse ++ branch, []⟩ rest := by
  induction u generalizing previous branch with
  | nil => exact ⟨previous, rfl⟩
  | cons c u ih =>
      rw [List.forall_mem_cons] at hu
      obtain ⟨previous', hread⟩ := @ih (some c) (.literal c :: branch) hu.2
      refine ⟨previous', ?_⟩
      rw [List.cons_append, readTokens_self hu.1, hread, List.map_cons, List.reverse_cons,
        List.append_assoc, List.singleton_append]

/-- The tokens of a pattern with one `?` in it. -/
theorem readTokens_one (hu : ∀ c ∈ u, StandsForItself c) (hv : ∀ c ∈ v, StandsForItself c) :
    readTokens none {} (u ++ '?' :: v) = .ok (u.map .literal ++ .any :: v.map .literal) := by
  obtain ⟨before, hbefore⟩ := @exists_readTokens_selves none [] ('?' :: v) u hu
  obtain ⟨after, hafter⟩ :=
    @exists_readTokens_selves (some '?') (.any :: (u.map Token.literal).reverse) [] v hv
  rw [List.append_nil] at hbefore hafter
  rw [hbefore, readTokens, Progress.push, hafter, readTokens, Progress.finish, List.reverse_append,
    List.reverse_reverse, List.reverse_cons, List.reverse_reverse, List.append_assoc,
    List.singleton_append]

/-! ### Bytes of characters -/

theorem standFor_literals_iff {text : Bytes} :
    StandFor (u.map .literal) text ↔ text = u.flatMap utf8 := by
  induction u generalizing text with
  | nil => exact standFor_nil_iff
  | cons c u ih =>
      simp only [List.map_cons, standFor_cons_iff, stands_literal_iff, ih, List.flatMap_cons]
      constructor
      · rintro ⟨_, _, rfl, rfl, rfl⟩
        rfl
      · rintro rfl
        exact ⟨_, _, rfl, rfl, rfl⟩

/-- A character is known by its bytes, whatever comes behind them. -/
theorem utf8_append_inj {d : Char} {s t : Bytes} (h : utf8 c ++ s = utf8 d ++ t) : c = d ∧ s = t := by
  have hcd : c = d := by
    rcases lt_trichotomy c d with hlt | heq | hlt
    · exact absurd (utf8EncodeChar_append_lt hlt s t) (h ▸ List.lt_irrefl _)
    · exact heq
    · exact absurd (utf8EncodeChar_append_lt hlt t s) (h ▸ List.lt_irrefl _)
  subst hcd
  exact ⟨rfl, List.append_cancel_left h⟩

/-- Bytes that begin with those of a text are those of it and of what follows it. -/
theorem exists_of_flatMap_utf8_eq_append {text : Bytes} (h : w.flatMap utf8 = u.flatMap utf8 ++ text) :
    ∃ rest, w = u ++ rest ∧ text = rest.flatMap utf8 := by
  induction u generalizing w with
  | nil => exact ⟨w, rfl, h.symm⟩
  | cons c u ih =>
      rw [List.flatMap_cons, List.append_assoc] at h
      cases w with
      | nil => exact absurd (List.append_eq_nil_iff.mp h.symm).1 String.utf8EncodeChar_ne_nil
      | cons d w =>
          obtain ⟨rfl, htail⟩ := utf8_append_inj h
          obtain ⟨rest, rfl, rfl⟩ := ih htail
          exact ⟨rest, rfl, rfl⟩

theorem flatMap_utf8_injective (h : w.flatMap utf8 = v.flatMap utf8) : w = v := by
  obtain ⟨rest, rfl, hrest⟩ := exists_of_flatMap_utf8_eq_append (h.trans (List.append_nil _).symm)
  cases rest with
  | nil => exact List.append_nil _
  | cons c rest => exact absurd (List.append_eq_nil_iff.mp hrest.symm).1 String.utf8EncodeChar_ne_nil

/-- The bytes after the first of a character begin no other. -/
theorem head?_ne_of_utf8_eq {first next : UInt8} {more : Bytes} (h : utf8 c = first :: next :: more) :
    (v.flatMap utf8).head? ≠ some next := by
  have hnext : ¬ next.IsUTF8FirstByte := by
    have hlength : 1 < (utf8 c).length := by simp [h]
    have hbyte : (utf8 c)[1] = next := by simp [h]
    rw [← hbyte]
    exact fun hfirst => absurd (UInt8.isUTF8FirstByte_getElem_utf8EncodeChar.mp hfirst) Nat.one_ne_zero
  intro hhead
  cases v with
  | nil => cases hhead
  | cons d v =>
      obtain ⟨b, bytes, hbytes⟩ := List.exists_cons_of_ne_nil (String.utf8EncodeChar_ne_nil (c := d))
      rw [List.flatMap_cons, utf8, hbytes] at hhead
      cases hhead
      have hlength : 0 < (String.utf8EncodeChar d).length := by simp [hbytes]
      have hbyte : (String.utf8EncodeChar d)[0] = next := by simp [hbytes]
      exact hnext (hbyte ▸ UInt8.isUTF8FirstByte_getElem_utf8EncodeChar.mpr rfl)

/-- A byte with whole characters behind it is a character. -/
theorem exists_of_flatMap_utf8_eq_cons {b : UInt8} (h : w.flatMap utf8 = b :: v.flatMap utf8) :
    ∃ c, w = c :: v ∧ utf8 c = [b] := by
  cases w with
  | nil => cases h
  | cons c w =>
      rw [List.flatMap_cons] at h
      cases hc : utf8 c with
      | nil => exact absurd hc String.utf8EncodeChar_ne_nil
      | cons first more =>
          rw [hc, List.cons_append] at h
          obtain ⟨rfl, htail⟩ := List.cons.inj h
          cases more with
          | nil => exact ⟨c, by rw [flatMap_utf8_injective htail], hc⟩
          | cons next more =>
              have hhead : (v.flatMap utf8).head? = some next := by rw [← htail]; rfl
              exact absurd hhead (head?_ne_of_utf8_eq hc)

theorem standFor_one_iff {text : Bytes} : StandFor (u.map .literal ++ .any :: v.map .literal) text ↔
    ∃ b, b ≠ slash ∧ text = u.flatMap utf8 ++ b :: v.flatMap utf8 := by
  simp only [standFor_append_iff, standFor_cons_iff, standFor_literals_iff, stands_any_iff]
  constructor
  · rintro ⟨_, _, rfl, rfl, _, _, rfl, ⟨b, rfl, hb⟩, rfl⟩
    exact ⟨b, hb, rfl⟩
  · rintro ⟨b, hb, rfl⟩
    exact ⟨_, _, rfl, rfl, [b], _, rfl, ⟨b, rfl, hb⟩, rfl⟩

/-- The bytes of a text with one byte put between two others. -/
theorem flatMap_utf8_eq_iff : (∃ b, b ≠ slash ∧ w.flatMap utf8 = u.flatMap utf8 ++ b :: v.flatMap utf8) ↔
    ∃ c : Char, c.utf8Size = 1 ∧ c ≠ '/' ∧ w = u ++ c :: v := by
  constructor
  · rintro ⟨b, hb, h⟩
    obtain ⟨rest, rfl, hrest⟩ := exists_of_flatMap_utf8_eq_append h
    obtain ⟨c, rfl, hc⟩ := exists_of_flatMap_utf8_eq_cons hrest.symm
    refine ⟨c, ?_, ?_, rfl⟩
    · rw [← String.length_utf8EncodeChar, ← utf8, hc]
      rfl
    · rw [Ne, ← slash_mem_utf8_iff, hc, List.mem_singleton]
      exact hb.symm
  · rintro ⟨c, hsize, hslash, rfl⟩
    obtain ⟨b, hb⟩ := List.length_eq_one_iff.mp ((String.length_utf8EncodeChar c).trans hsize)
    refine ⟨b, ?_, ?_⟩
    · rw [Ne, ← slash_mem_utf8_iff, utf8, hb, List.mem_singleton] at hslash
      exact Ne.symm hslash
    · rw [List.flatMap_append, List.flatMap_cons, utf8, hb]
      rfl

theorem matches_one {front back path : String} (hfront : ∀ c ∈ front.toList, StandsForItself c)
    (hback : ∀ c ∈ back.toList, StandsForItself c) (hpath : '\\' ∉ path.toList) :
    Glob.matches path (front ++ "?" ++ back) = .ok (Glob.accepts
      ⟨front.toList.map .literal ++ .any :: back.toList.map .literal⟩ path) := by
  have hpattern : (front ++ "?" ++ back).toList = front.toList ++ '?' :: back.toList := by simp
  have hcompile : Glob.compile (front ++ "?" ++ back) =
      .ok ⟨front.toList.map .literal ++ .any :: back.toList.map .literal⟩ := by
    rw [Glob.compile, parse, hpattern, readTokens_one hfront hback]
    rfl
  rw [Glob.matches, hcompile, Path.slashed_eq_self hpath]
  rfl

/-- `?` among characters that stand for themselves stands for one character other than the slash, as long
as that is one byte. -/
theorem matches_one_iff {front back path : String} (hfront : ∀ c ∈ front.toList, StandsForItself c)
    (hback : ∀ c ∈ back.toList, StandsForItself c) (hpath : '\\' ∉ path.toList) :
    ∃ answer, Glob.matches path (front ++ "?" ++ back) = .ok answer ∧
      (answer = true ↔ ∃ c : Char, c.utf8Size = 1 ∧ c ≠ '/' ∧ path = front ++ c.toString ++ back) := by
  have htokens : front.toList.map Token.literal ++ .any :: back.toList.map .literal ≠ [.anyBefore] := by
    cases front.toList <;> simp
  refine ⟨_, matches_one hfront hback hpath, ?_⟩
  rw [accepts_iff_standFor htokens, standFor_one_iff, utf8Bytes_eq]
  refine flatMap_utf8_eq_iff.trans (exists_congr fun c => and_congr_right fun _ => and_congr_right fun _ => ?_)
  rw [← String.toList_inj]
  simp

/-- Between other characters of several bytes. -/
theorem matches_one_iff_accented : Glob.matches "ä/bü" "ä/?ü" = .ok true := by
  obtain ⟨answer, hanswer, hiff⟩ :=
    @matches_one_iff "ä/" "ü" "ä/bü" (by simp [StandsForItself]) (by simp [StandsForItself]) (by decide)
  have hpattern : "ä/" ++ "?" ++ "ü" = "ä/?ü" := by decide
  rw [← hpattern, hanswer, hiff.mpr ⟨'b', by decide, by decide, by decide⟩]

/-- A character of two bytes is one character other than the slash, and `?` does not stand for it. -/
theorem accented_not_matched : 'é' ≠ '/' ∧ "é" = "" ++ 'é'.toString ++ "" ∧
    Glob.matches "é" ("" ++ "?" ++ "") = .ok false := by
  refine ⟨by decide, by decide, ?_⟩
  rw [matches_one (by simp) (by simp) (by decide)]
  decide

end AssetPipeline.Glob
