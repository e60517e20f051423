import AssetPipeline.Glob.Parser
import AssetPipeline.Proofs.Text

/-! What the tokens of a pattern stand for. The tables of a shape decide whether a text has it, and a
pattern stands for the texts that can be cut into pieces, one for each token. -/

namespace AssetPipeline.Glob

namespace Shape

namespace Table

variable {accepts : UInt8 → Bool} {p q : Bytes → Bool}

theorem atEnd_eq (text : Bytes) : atEnd text = ofPredicate List.isEmpty text := by
  induction text with
  | nil => rfl
  | cons b text ih => rw [atEnd, ofPredicate, ih, List.isEmpty_cons]

theorem ofByte_ofPredicate (hnil : q [] = false) (hcons : ∀ b text, q (b :: text) = (accepts b && p text))
    (text : Bytes) : ofByte accepts text (ofPredicate p text) = ofPredicate q text := by
  induction text with
  | nil => rw [ofByte, ofPredicate, hnil]
  | cons b text ih => rw [ofPredicate, ofByte, List.tail_cons, whole_ofPredicate, ih, ofPredicate, hcons]

theorem ofMany_ofPredicate (hnil : q [] = p [])
    (hcons : ∀ b text, q (b :: text) = (p (b :: text) || (accepts b && q text))) (text : Bytes) :
    ofMany accepts text (ofPredicate p text) = ofPredicate q text := by
  induction text with
  | nil => rw [ofMany, whole_ofPredicate, ofPredicate, hnil]
  | cons b text ih =>
      rw [ofMany, whole_ofPredicate, ofPredicate, List.tail_cons, ih, whole_ofPredicate, ofPredicate, hcons]

theorem zipWith_or_ofPredicate (p q : Bytes → Bool) (text : Bytes) :
    List.zipWith (· || ·) (ofPredicate p text) (ofPredicate q text) =
      ofPredicate (fun text => p text || q text) text := by
  induction text with
  | nil => rfl
  | cons b text ih => rw [ofPredicate, ofPredicate, List.zipWith_cons_cons, ih, ofPredicate]

end Table

/-- Whether some bytes at the front are accepted and the rest is what may follow. -/
def manyThen (accepts : UInt8 → Bool) (p : Bytes → Bool) : Bytes → Bool
  | [] => p []
  | b :: text => p (b :: text) || (accepts b && manyThen accepts p text)

theorem manyThen_iff {accepts : UInt8 → Bool} {p : Bytes → Bool} {text : Bytes} :
    manyThen accepts p text = true ↔
      ∃ u v, text = u ++ v ∧ (∀ b ∈ u, accepts b = true) ∧ p v = true := by
  induction text with
  | nil => simp [manyThen]
  | cons b text ih =>
      rw [manyThen, Bool.or_eq_true, Bool.and_eq_true, ih]
      constructor
      · rintro (h | ⟨hb, u, v, rfl, hu, hv⟩)
        · exact ⟨[], b :: text, rfl, List.forall_mem_nil _, h⟩
        · exact ⟨b :: u, v, rfl, List.forall_mem_cons.mpr ⟨hb, hu⟩, hv⟩
      · rintro ⟨u, v, heq, hu, hv⟩
        cases u with
        | nil =>
            cases heq
            exact .inl hv
        | cons first u =>
            cases heq
            obtain ⟨hb, hu⟩ := List.forall_mem_cons.mp hu
            exact .inr ⟨hb, u, v, rfl, hu, hv⟩

/-- The table of a shape is that of a predicate: a piece with the shape, and then what may follow. -/
theorem exists_table_eq (shape : Shape) (p : Bytes → Bool) : ∃ q : Bytes → Bool,
    (∀ text, shape.table text (Table.ofPredicate p text) = Table.ofPredicate q text) ∧
      ∀ text, q text = true ↔ ∃ u v, text = u ++ v ∧ shape.Holds u ∧ p v = true := by
  induction shape generalizing p with
  | empty => exact ⟨p, fun _ => rfl, fun text => by simp [Holds]⟩
  | byte accepts =>
      refine ⟨fun text => text.head?.any accepts && p text.tail, fun text => ?_, fun text => ?_⟩
      · exact Table.ofByte_ofPredicate rfl (fun _ _ => rfl) text
      · cases text with
        | nil => simp [Holds]
        | cons b text =>
            simp only [List.head?_cons, Option.any_some, List.tail_cons, Bool.and_eq_true, Holds]
            constructor
            · rintro ⟨hb, hp⟩
              exact ⟨[b], text, rfl, ⟨b, rfl, hb⟩, hp⟩
            · rintro ⟨_, v, heq, ⟨_, rfl, hb⟩, hp⟩
              cases heq
              exact ⟨hb, hp⟩
  | many accepts =>
      have hcons : ∀ b text, manyThen accepts p (b :: text) =
          (p (b :: text) || (accepts b && manyThen accepts p text)) := fun _ _ => rfl
      exact ⟨manyThen accepts p, Table.ofMany_ofPredicate rfl hcons, fun text => manyThen_iff⟩
  | seq first second ihfirst ihsecond =>
      obtain ⟨q, hq, hqiff⟩ := ihsecond p
      obtain ⟨r, hr, hriff⟩ := ihfirst q
      refine ⟨r, fun text => by rw [table, hq, hr], fun text => ?_⟩
      rw [hriff]
      constructor
      · rintro ⟨u, rest, rfl, hu, hrest⟩
        obtain ⟨v, w, rfl, hv, hw⟩ := (hqiff rest).mp hrest
        exact ⟨u ++ v, w, (List.append_assoc _ _ _).symm, ⟨u, v, rfl, hu, hv⟩, hw⟩
      · rintro ⟨_, w, rfl, ⟨u, v, rfl, hu, hv⟩, hw⟩
        exact ⟨u, v ++ w, List.append_assoc _ _ _, hu, (hqiff _).mpr ⟨v, w, rfl, hv, hw⟩⟩
  | either left right ihleft ihright =>
      obtain ⟨q, hq, hqiff⟩ := ihleft p
      obtain ⟨r, hr, hriff⟩ := ihright p
      refine ⟨fun text => q text || r text, fun text => ?_, fun text => ?_⟩
      · rw [table, hq, hr, Table.zipWith_or_ofPredicate]
      · simp only [Bool.or_eq_true, hqiff, hriff, Holds, or_and_right, and_or_left, exists_or]

/-- The tables decide whether a text has a shape. -/
theorem accepts_iff_holds (shape : Shape) (text : Bytes) :
    shape.accepts text = true ↔ shape.Holds text := by
  obtain ⟨q, hq, hqiff⟩ := shape.exists_table_eq List.isEmpty
  rw [accepts, Table.atEnd_eq, hq, Table.whole_ofPredicate, hqiff]
  simp

theorem ofBytes_holds_iff {bytes text : Bytes} : (ofBytes bytes).Holds text ↔ text = bytes := by
  induction bytes generalizing text with
  | nil => rfl
  | cons b bytes ih =>
      simp only [ofBytes, Holds, ih, decide_eq_true_eq]
      constructor
      · rintro ⟨_, _, rfl, ⟨_, rfl, rfl⟩, rfl⟩
        rfl
      · rintro rfl
        exact ⟨[b], bytes, rfl, ⟨b, rfl, rfl⟩, rfl⟩

theorem separator_holds_iff {text : Bytes} : separator.Holds text ↔ text = [slash] := by
  simp [separator, Holds]

theorem anything_holds (text : Bytes) : anything.Holds text :=
  fun _ _ => rfl

end Shape

/-! ### Tokens -/

/-- The texts that a token stands for. -/
def Token.Stands (t : Token) (text : Bytes) : Prop :=
  (t.shape?.getD .empty).Holds text

/-- A text in pieces, one for each of some tokens. -/
inductive StandFor : List Token → Bytes → Prop where
  | nil : StandFor [] []
  | cons {t : Token} {ts : List Token} {u v : Bytes} (hu : t.Stands u) (hv : StandFor ts v) :
    StandFor (t :: ts) (u ++ v)

variable {t : Token} {ts ts' : List Token} {text : Bytes}

theorem standFor_nil_iff : StandFor [] text ↔ text = [] := by
  constructor
  · intro h
    cases h
    rfl
  · rintro rfl
    exact .nil

theorem standFor_cons_iff :
    StandFor (t :: ts) text ↔ ∃ u v, text = u ++ v ∧ t.Stands u ∧ StandFor ts v := by
  constructor
  · intro h
    cases h with
    | cons hu hv => exact ⟨_, _, rfl, hu, hv⟩
  · rintro ⟨u, v, rfl, hu, hv⟩
    exact .cons hu hv

theorem standFor_singleton_iff : StandFor [t] text ↔ t.Stands text := by
  simp [standFor_cons_iff, standFor_nil_iff]

theorem standFor_append_iff :
    StandFor (ts ++ ts') text ↔ ∃ u v, text = u ++ v ∧ StandFor ts u ∧ StandFor ts' v := by
  induction ts generalizing text with
  | nil => simp [standFor_nil_iff]
  | cons t ts ih =>
      simp only [List.cons_append, standFor_cons_iff, ih]
      constructor
      · rintro ⟨u, _, rfl, hu, v, w, rfl, hv, hw⟩
        exact ⟨u ++ v, w, (List.append_assoc _ _ _).symm, ⟨u, v, rfl, hu, hv⟩, hw⟩
      · rintro ⟨_, w, rfl, ⟨u, v, rfl, hu, hv⟩, hw⟩
        exact ⟨u, v ++ w, List.append_assoc _ _ _, hu, v, w, rfl, hv, hw⟩

/-- Tokens without a shape of their own are as if they were not there. -/
theorem tokensShape?_holds_iff :
    ((tokensShape? ts).getD .empty).Holds text ↔ StandFor ts text := by
  induction ts generalizing text with
  | nil => exact standFor_nil_iff.symm
  | cons t ts ih =>
      rw [standFor_cons_iff, tokensShape?]
      simp only [Token.Stands, ← ih]
      cases t.shape? <;> cases tokensShape? ts <;> simp [Shape.Holds]

/-- A pattern that is not `**` alone accepts the texts that its tokens stand for. -/
theorem patternShape_holds_iff (h : ts ≠ [.anyBefore]) :
    (patternShape ts).Holds text ↔ StandFor ts text := by
  rw [← tokensShape?_holds_iff, patternShape]
  exact h

theorem stands_literal_iff {c : Char} : (Token.literal c).Stands text ↔ text = utf8 c := by
  rw [Token.Stands, Token.shape?]
  exact Shape.ofBytes_holds_iff

theorem stands_any_iff : Token.any.Stands text ↔ ∃ b, text = [b] ∧ b ≠ slash := by
  simp [Token.Stands, Token.shape?, Shape.Holds]

theorem stands_star_iff : Token.star.Stands text ↔ slash ∉ text := by
  simp only [Token.Stands, Token.shape?, Option.getD_some, Shape.Holds, decide_eq_true_eq]
  exact ⟨fun h hmem => h _ hmem rfl, fun h b hb heq => h (heq ▸ hb)⟩

theorem stands_anyBefore_iff : Token.anyBefore.Stands text ↔ text = [] ∨ ∃ u, text = u ++ [slash] := by
  simp only [Token.Stands, Token.shape?, Option.getD_some, Shape.Holds, Shape.separator_holds_iff]
  constructor
  · rintro ((h | h) | ⟨u, _, rfl, -, rfl⟩)
    · exact .inl h
    · exact .inr ⟨[], h⟩
    · exact .inr ⟨u, rfl⟩
  · rintro (h | ⟨u, rfl⟩)
    · exact .inl (.inl h)
    · exact .inr ⟨u, [slash], rfl, Shape.anything_holds u, rfl⟩

theorem stands_anyBelow_iff : Token.anyBelow.Stands text ↔ ∃ v, text = slash :: v := by
  simp only [Token.Stands, Token.shape?, Option.getD_some, Shape.Holds, Shape.separator_holds_iff]
  constructor
  · rintro ⟨_, v, rfl, rfl, -⟩
    exact ⟨v, rfl⟩
  · rintro ⟨v, rfl⟩
    exact ⟨[slash], v, rfl, rfl, Shape.anything_holds v⟩

/-- With a separator in front, `**` between separators is `**` before one. -/
theorem stands_anyBetween_iff :
    Token.anyBetween.Stands text ↔ ∃ u, text = slash :: u ∧ Token.anyBefore.Stands u := by
  simp only [stands_anyBefore_iff]
  simp only [Token.Stands, Token.shape?, Option.getD_some, Shape.Holds, Shape.separator_holds_iff]
  constructor
  · rintro (rfl | ⟨_, _, rfl, rfl, u, _, rfl, -, rfl⟩)
    · exact ⟨[], rfl, .inl rfl⟩
    · exact ⟨u ++ [slash], rfl, .inr ⟨u, rfl⟩⟩
  · rintro ⟨u, rfl, rfl | ⟨v, rfl⟩⟩
    · exact .inl rfl
    · exact .inr ⟨[slash], v ++ [slash], rfl, rfl, v, [slash], rfl, Shape.anything_holds v, rfl⟩

/-- What a pattern accepts, for all patterns but `**` alone. -/
theorem accepts_iff_standFor {g : Glob} {path : String} (h : g.tokens ≠ [.anyBefore]) :
    g.accepts path = true ↔ StandFor g.tokens (utf8Bytes path) := by
  rw [← patternShape_holds_iff h, ← Shape.accepts_iff_holds, utf8Bytes_eq]
  rfl

end AssetPipeline.Glob
