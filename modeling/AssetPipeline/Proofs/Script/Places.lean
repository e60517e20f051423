import AssetPipeline.Proofs.Script.LongestMatch
import AssetPipeline.Text.Chars

/-! Places in a description. A place counts the lines that end before it and the characters before it in its
own line, so places lie in the order of their offsets, and a place tells how much of the text is before it. -/

namespace AssetPipeline

namespace Position

variable {p q r : Position} {text last : List Char}

/-- One place is before another: in an earlier line, or further left in the same one. -/
def Precedes (p q : Position) : Prop :=
  p.line < q.line ∨ p.line = q.line ∧ p.column < q.column

theorem Precedes.trans (hpq : p.Precedes q) (hqr : q.Precedes r) : p.Precedes r := by
  unfold Precedes at *
  omega

theorem Precedes.not_symm (h : p.Precedes q) : ¬ q.Precedes p := by
  unfold Precedes at *
  omega

theorem not_precedes_self (p : Position) : ¬ p.Precedes p :=
  fun h => h.not_symm h

theorem precedes_step (p : Position) (c : Char) : p.Precedes (p.step c) := by
  unfold step
  split_ifs with hc
  · exact .inl (Nat.lt_succ_self _)
  · exact .inr ⟨rfl, Nat.lt_succ_self _⟩

theorem precedes_foldl_step (hne : text ≠ []) (p : Position) : p.Precedes (text.foldl step p) := by
  induction text generalizing p with
  | nil => exact absurd rfl hne
  | cons c text ih =>
      rw [List.foldl_cons]
      by_cases hmore : text = []
      · subst hmore
        exact precedes_step p c
      · exact (precedes_step p c).trans (ih hmore _)

/-- Within a line the column counts the characters. -/
theorem foldl_step_of_notMem (h : '\n' ∉ text) (p : Position) :
    text.foldl step p = ⟨p.line, p.column + text.length⟩ := by
  induction text generalizing p with
  | nil => rfl
  | cons c text ih =>
      rw [List.mem_cons, not_or] at h
      rw [List.foldl_cons, ih h.2, step, if_neg (Ne.symm h.1), List.length_cons]
      simp only [mk.injEq, true_and]
      omega

/-- Over whole lines, the line feed behind each of them included, only the lines count. -/
theorem foldl_step_lines {lines : List (List Char)} (hlines : ∀ line ∈ lines, '\n' ∉ line) (n : Nat) :
    (lines.flatMap (· ++ ['\n'])).foldl step ⟨n, 1⟩ = ⟨n + lines.length, 1⟩ := by
  induction lines generalizing n with
  | nil => rfl
  | cons line lines ih =>
      rw [List.forall_mem_cons] at hlines
      have hline : (line ++ ['\n']).foldl step ⟨n, 1⟩ = ⟨n + 1, 1⟩ := by
        rw [List.foldl_append, foldl_step_of_notMem hlines.1]
        rfl
      rw [List.flatMap_cons, List.foldl_append, hline, ih hlines.2, List.length_cons]
      congr 1
      omega

end Position

namespace Chars

variable {front rest : List Char}

/-- A text is some whole lines and the beginning of one more. -/
theorem exists_lines (text : List Char) : ∃ (lines : List (List Char)) (last : List Char),
    text = lines.flatMap (· ++ ['\n']) ++ last ∧ (∀ line ∈ lines, '\n' ∉ line) ∧ '\n' ∉ last := by
  induction text with
  | nil => exact ⟨[], [], rfl, List.forall_mem_nil _, List.not_mem_nil⟩
  | cons c text ih =>
      obtain ⟨lines, last, htext, hlines, hlast⟩ := ih
      by_cases hc : c = '\n'
      · refine ⟨[] :: lines, last, ?_, List.forall_mem_cons.mpr ⟨List.not_mem_nil, hlines⟩, hlast⟩
        rw [hc, htext]
        rfl
      · cases lines with
        | nil => exact ⟨[], c :: last, by rw [htext]; rfl, hlines, by simp [hlast, Ne.symm hc]⟩
        | cons line lines =>
            rw [List.forall_mem_cons] at hlines
            refine ⟨(c :: line) :: lines, last, by rw [htext]; rfl, ?_, hlast⟩
            exact List.forall_mem_cons.mpr ⟨by simp [hlines.1, Ne.symm hc], hlines.2⟩

theorem splitOn_append_of_notMem (h : '\n' ∉ front) :
    splitOn '\n' (front ++ rest) = (splitOn '\n' rest).modifyHead (front ++ ·) := by
  obtain ⟨piece, pieces, hpieces⟩ := List.exists_cons_of_ne_nil (splitOn_ne_nil '\n' rest)
  rw [hpieces]
  induction front with
  | nil => exact hpieces
  | cons c front ih =>
      rw [List.mem_cons, not_or] at h
      rw [List.cons_append, splitOn, if_neg (Ne.symm h.1), ih h.2]
      rfl

theorem splitOn_lines_append {lines : List (List Char)} (hlines : ∀ line ∈ lines, '\n' ∉ line) :
    splitOn '\n' (lines.flatMap (· ++ ['\n']) ++ rest) = lines ++ splitOn '\n' rest := by
  induction lines with
  | nil => rfl
  | cons line lines ih =>
      rw [List.forall_mem_cons] at hlines
      rw [List.flatMap_cons, List.append_assoc, List.append_assoc, splitOn_append_of_notMem hlines.1,
        List.singleton_append, splitOn, if_pos rfl, ih hlines.2]
      simp

end Chars

namespace Script

variable {source : String} {problem : Problem} {before after text : List Char}

theorem position_locate (h : source.toList = before ++ after) :
    (Fault.locate source ⟨byteLength before, problem⟩).position = before.foldl Position.step .start := by
  rw [Fault.locate, Position.ofOffset, h]
  exact Position.advance_byteLength _ _ _

theorem Position.advance_of_byteLength_le (p : Position) {offset : Nat} (h : byteLength text ≤ offset) :
    p.advance text offset = text.foldl Position.step p := by
  induction text generalizing p offset with
  | nil => rfl
  | cons c text ih =>
      rw [byteLength_cons] at h
      rw [Position.advance, if_pos (by omega), ih _ (by omega), List.foldl_cons]

/-- A place between two characters of a text, by its bytes. -/
theorem isValid_iff_exists_byteLength {offset : Nat} : String.Pos.Raw.IsValid source ⟨offset⟩ ↔
    ∃ before after, source.toList = before ++ after ∧ offset = byteLength before := by
  rw [String.Pos.Raw.isValid_iff_exists_append]
  constructor
  · rintro ⟨front, rest, rfl, hoffset⟩
    refine ⟨front.toList, rest.toList, String.toList_append, ?_⟩
    rw [← utf8ByteSize_eq]
    exact congrArg String.Pos.Raw.byteIdx hoffset
  · rintro ⟨before, after, hsource, rfl⟩
    refine ⟨String.ofList before, String.ofList after, ?_, ?_⟩
    · rw [← String.ofList_append, ← hsource, String.ofList_toList]
    · rw [String.Pos.Raw.ext_iff, String.byteIdx_rawEndPos, utf8ByteSize_eq, String.toList_ofList]

/-- What is before a place with fewer bytes before it stands at the front of what is before another. -/
theorem exists_append_of_byteLength_lt {before' after' : List Char}
    (h : before ++ after = before' ++ after') (hlt : byteLength before < byteLength before') :
    ∃ between, between ≠ [] ∧ before' = before ++ between := by
  rcases List.append_eq_append_iff.mp h with ⟨between, rfl, -⟩ | ⟨between, rfl, -⟩
  · refine ⟨between, ?_, rfl⟩
    rintro rfl
    simp at hlt
  · rw [byteLength_append] at hlt
    omega

theorem precedes_locate_of_lt {a b : Nat} (ha : String.Pos.Raw.IsValid source ⟨a⟩)
    (hb : String.Pos.Raw.IsValid source ⟨b⟩) (hlt : a < b) :
    (Fault.locate source ⟨a, problem⟩).position.Precedes (Fault.locate source ⟨b, problem⟩).position := by
  obtain ⟨before, after, hsource, rfl⟩ := isValid_iff_exists_byteLength.mp ha
  obtain ⟨before', after', hsource', rfl⟩ := isValid_iff_exists_byteLength.mp hb
  obtain ⟨between, hne, rfl⟩ := exists_append_of_byteLength_lt (hsource.symm.trans hsource') hlt
  rw [position_locate hsource, position_locate hsource', List.foldl_append]
  exact Position.precedes_foldl_step hne _

/-- The places of a text are in the order of their offsets. A place says how the text before it is made:
its line counts the lines that end there, its column the characters of the next one. All offsets beyond
the end are at the place of the end. -/
theorem locate_strictMono (source : String) (problem : Problem) :
    (∀ a b, String.Pos.Raw.IsValid source ⟨a⟩ → String.Pos.Raw.IsValid source ⟨b⟩ →
      ((Fault.locate source ⟨a, problem⟩).position.Precedes (Fault.locate source ⟨b, problem⟩).position ↔
        a < b)) ∧
    (∀ before after : String, source = before ++ after →
      ∃ lines further remaining rest,
        Chars.splitOn '\n' source.toList = lines ++ (further ++ remaining) :: rest ∧
        before.toList = lines.flatMap (· ++ ['\n']) ++ further ∧
        (Fault.locate source ⟨before.utf8ByteSize, problem⟩).position =
          ⟨lines.length + 1, further.length + 1⟩) ∧
    ∀ offset, source.utf8ByteSize ≤ offset →
      (Fault.locate source ⟨offset, problem⟩).position =
        (Fault.locate source ⟨source.utf8ByteSize, problem⟩).position := by
  refine ⟨fun a b ha hb => ⟨fun h => ?_, precedes_locate_of_lt ha hb⟩, ?_, fun offset hoffset => ?_⟩
  · by_contra hnot
    rcases Nat.lt_or_eq_of_le (Nat.le_of_not_lt hnot) with hlt | rfl
    · exact h.not_symm (precedes_locate_of_lt hb ha hlt)
    · exact Position.not_precedes_self _ h
  · rintro before after rfl
    obtain ⟨lines, further, hbefore, hlines, hfurther⟩ := Chars.exists_lines before.toList
    obtain ⟨remaining, rest, hrest⟩ :=
      List.exists_cons_of_ne_nil (Chars.splitOn_ne_nil '\n' after.toList)
    refine ⟨lines, further, remaining, rest, ?_, hbefore, ?_⟩
    · rw [String.toList_append, hbefore, List.append_assoc, Chars.splitOn_lines_append hlines,
        Chars.splitOn_append_of_notMem hfurther, hrest]
      rfl
    · rw [utf8ByteSize_eq, position_locate String.toList_append, hbefore, List.foldl_append,
        Position.start, Position.foldl_step_lines hlines, Position.foldl_step_of_notMem hfurther]
      simp only [Position.mk.injEq]
      omega
  · rw [utf8ByteSize_eq] at hoffset ⊢
    simp only [Fault.locate, Position.ofOffset, Position.advance_of_byteLength_le _ hoffset,
      Position.advance_of_byteLength_le _ (Nat.le_refl (byteLength source.toList))]

/-- Offsets on both sides of a line feed, behind characters of two bytes, and one beyond the end. -/
theorem locate_strictMono_accented :
    (Fault.locate "é\nßx" ⟨2, .tooDeep⟩).position.Precedes
        (Fault.locate "é\nßx" ⟨5, .tooDeep⟩).position ∧
      (∃ lines further remaining rest,
        Chars.splitOn '\n' "é\nßx".toList = lines ++ (further ++ remaining) :: rest ∧
        "é\nß".toList = lines.flatMap (· ++ ['\n']) ++ further ∧
        (Fault.locate "é\nßx" ⟨5, .tooDeep⟩).position = ⟨lines.length + 1, further.length + 1⟩) ∧
      (Fault.locate "é\nßx" ⟨9, .tooDeep⟩).position = (Fault.locate "é\nßx" ⟨6, .tooDeep⟩).position := by
  have hvalid : ∀ before after, before ++ after = "é\nßx" →
      String.Pos.Raw.IsValid "é\nßx" ⟨before.utf8ByteSize⟩ := fun before after hsource =>
    String.Pos.Raw.isValid_iff_exists_append.mpr ⟨before, after, hsource.symm, rfl⟩
  obtain ⟨hmono, hmade, hbeyond⟩ := locate_strictMono "é\nßx" .tooDeep
  have hfirst : String.Pos.Raw.IsValid "é\nßx" ⟨2⟩ := hvalid "é" "\nßx" (by decide)
  have hsecond : String.Pos.Raw.IsValid "é\nßx" ⟨5⟩ := hvalid "é\nß" "x" (by decide)
  exact ⟨(hmono 2 5 hfirst hsecond).mpr (by decide), hmade "é\nß" "x" (by decide), hbeyond 9 (by decide)⟩

end Script

end AssetPipeline
