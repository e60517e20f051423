/-! Cutting character lists at a separator, and dropping characters from the end. Bytes are cut alike. -/

namespace AssetPipeline.Chars

/-- What stands before and after the last `separator`, if there is one. -/
def cutLast? (separator : Char) : List Char → Option (List Char × List Char)
  | [] => none
  | c :: text =>
    match cutLast? separator text with
    | some (before, after) => some (c :: before, after)
    | none => if c = separator then some ([], text) else none

theorem cutLast?_eq_none_iff {separator : Char} {text : List Char} :
    cutLast? separator text = none ↔ separator ∉ text := by
  induction text with
  | nil => simp [cutLast?]
  | cons c text ih =>
    simp only [cutLast?, List.mem_cons, not_or]
    split
    · rename_i hcut
      have hne : ¬ separator ∉ text := fun h => by simp [ih.2 h] at hcut
      simp [hne]
    · rename_i hcut
      have hmem := ih.1 hcut
      by_cases hc : c = separator
      · simp [hc]
      · simp [hc, hmem, Ne.symm hc]

theorem cutLast?_eq_some {separator : Char} {text before after : List Char}
    (h : cutLast? separator text = some (before, after)) :
    text = before ++ separator :: after ∧ separator ∉ after := by
  induction text generalizing before with
  | nil => simp [cutLast?] at h
  | cons c text ih =>
    simp only [cutLast?] at h
    split at h
    · rename_i b a hcut
      simp only [Option.some.injEq, Prod.mk.injEq] at h
      obtain ⟨rfl, rfl⟩ := h
      obtain ⟨hsplit, hnot⟩ := ih hcut
      exact ⟨by rw [hsplit]; rfl, hnot⟩
    · rename_i hcut
      split at h
      · rename_i heq
        simp only [Option.some.injEq, Prod.mk.injEq] at h
        obtain ⟨rfl, rfl⟩ := h
        exact ⟨by rw [heq]; rfl, cutLast?_eq_none_iff.1 hcut⟩
      · simp at h

/-- The pieces between the separators, in order; a text without any is one piece. -/
def splitOn {α : Type} [DecidableEq α] (separator : α) : List α → List (List α)
  | [] => [[]]
  | c :: text =>
    if c = separator then [] :: splitOn separator text
    else
      match splitOn separator text with
      | [] => [[c]]
      | piece :: pieces => (c :: piece) :: pieces

theorem splitOn_ne_nil {α : Type} [DecidableEq α] (separator : α) (text : List α) :
    splitOn separator text ≠ [] := by
  cases text with
  | nil => simp [splitOn]
  | cons c text =>
    simp only [splitOn]
    split
    · simp
    · split <;> simp

/-- Drops `c` from the end as often as it stands there. -/
def trimEnd (c : Char) (text : List Char) : List Char :=
  (text.reverse.dropWhile (· = c)).reverse

end AssetPipeline.Chars
