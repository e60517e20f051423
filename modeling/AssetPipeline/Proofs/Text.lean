import AssetPipeline.Text.Chars
import AssetPipeline.Text.Utf8
import Mathlib.Data.List.Nodup
import Mathlib.Data.String.Basic

/-! Texts between separators, and lists of texts in order. -/

namespace AssetPipeline

theorem notMem_intercalate {α : Type} {x : α} {separator : List α} {lists : List (List α)}
    (hseparator : x ∉ separator) (hlists : ∀ l ∈ lists, x ∉ l) :
    x ∉ separator.intercalate lists := by
  induction lists with
  | nil => simp
  | cons l lists ih =>
      rw [List.forall_mem_cons] at hlists
      cases lists with
      | nil => simpa using hlists.1
      | cons next lists =>
          rw [List.intercalate_cons_cons, List.mem_append, List.mem_append, not_or, not_or]
          exact ⟨⟨hlists.1, hseparator⟩, ih hlists.2⟩

theorem Chars.splitOn_eq {α : Type} [DecidableEq α] (separator : α) (text : List α) :
    Chars.splitOn separator text = text.splitOn separator := by
  induction text with
  | nil => rfl
  | cons c text ih =>
      have hcons : (c :: text).splitOn separator =
          if c == separator then [] :: text.splitOn separator
          else (text.splitOn separator).modifyHead (c :: ·) :=
        List.splitOnP_cons_eq_if_modifyHead c text
      rw [Chars.splitOn, ih, hcons]
      by_cases hc : c = separator
      · rw [if_pos hc, if_pos (beq_iff_eq.mpr hc)]
      · rw [if_neg hc, if_neg fun heq => hc (beq_iff_eq.mp heq)]
        cases hpieces : text.splitOn separator with
        | nil => exact absurd hpieces (List.splitOnP_ne_nil _ _)
        | cons piece pieces => rfl

/-- A text is one piece, or a piece, a separator and more text. -/
theorem splitOn_induction {α : Type} [DecidableEq α] (separator : α) {motive : List α → Prop}
    (piece : ∀ text, separator ∉ text → motive text)
    (cut : ∀ front rest, separator ∉ front → motive rest → motive (front ++ separator :: rest))
    (text : List α) : motive text := by
  induction hlength : text.length using Nat.strongRecOn generalizing text with
  | ind n ih =>
      by_cases hmem : separator ∈ text
      · obtain ⟨front, rest, rfl, hfront⟩ := List.eq_append_cons_of_mem hmem
        refine cut front rest hfront (ih rest.length ?_ rest rfl)
        rw [← hlength, List.length_append, List.length_cons]
        omega
      · exact piece text hmem

section Pieces

variable {α : Type} [DecidableEq α] {separator : α} {text piece : List α}

theorem infix_of_mem_splitOn (h : piece ∈ text.splitOn separator) : piece <:+: text := by
  induction text using splitOn_induction separator with
  | piece text htext =>
      rw [List.splitOn_eq_singleton htext, List.mem_singleton] at h
      exact h ▸ List.infix_refl text
  | cut front rest hfront ih =>
      rw [List.splitOn_append_cons_self, List.splitOn_eq_singleton hfront, List.singleton_append,
        List.mem_cons] at h
      rcases h with rfl | h
      · exact List.infix_append' [] piece _
      · exact (ih h).trans ⟨front ++ [separator], [], by simp⟩

theorem notMem_of_mem_splitOn (h : piece ∈ text.splitOn separator) : separator ∉ piece := by
  induction text using splitOn_induction separator with
  | piece text htext =>
      rw [List.splitOn_eq_singleton htext, List.mem_singleton] at h
      rwa [h]
  | cut front rest hfront ih =>
      rw [List.splitOn_append_cons_self, List.splitOn_eq_singleton hfront, List.singleton_append,
        List.mem_cons] at h
      rcases h with rfl | h
      · exact hfront
      · exact ih h

end Pieces

section Order

variable {l l' : List String}

theorem pairwise_mergeSort (l : List String) : (l.mergeSort (· ≤ ·)).Pairwise (· ≤ ·) := by
  have htrans : ∀ a b c : String, decide (a ≤ b) → decide (b ≤ c) → decide (a ≤ c) := by
    intro a b c hab hbc
    rw [decide_eq_true_eq] at hab hbc ⊢
    exact String.le_trans hab hbc
  have htotal : ∀ a b : String, decide (a ≤ b) || decide (b ≤ a) := by
    intro a b
    rw [Bool.or_eq_true, decide_eq_true_eq, decide_eq_true_eq]
    exact String.le_total a b
  exact (List.pairwise_mergeSort htrans htotal l).imp fun h => of_decide_eq_true h

theorem mem_mergeSort_map_iff {α : Type} {items : List α} {f : α → String} {text : String} :
    text ∈ (items.map f).mergeSort (· ≤ ·) ↔ ∃ item ∈ items, f item = text := by
  rw [(List.mergeSort_perm _ _).mem_iff, List.mem_map]

/-- Lists in order that hold the same texts as often are the same. -/
theorem eq_of_perm_of_pairwise_le (h : l.Pairwise (· ≤ ·)) (h' : l'.Pairwise (· ≤ ·))
    (hperm : l.Perm l') : l = l' := by
  refine hperm.eq_of_pairwise (fun a b _ _ hab hba => ?_) h h'
  exact String.le_antisymm hab hba

/-- Lists in strict order that hold the same texts are the same. -/
theorem eq_of_pairwise_lt (h : l.Pairwise (· < ·)) (h' : l'.Pairwise (· < ·))
    (hmem : ∀ text, text ∈ l ↔ text ∈ l') : l = l' := by
  have hnodup : l.Nodup := h.imp fun hlt => String.ne_of_lt hlt
  have hnodup' : l'.Nodup := h'.imp fun hlt => String.ne_of_lt hlt
  have hle : l.Pairwise (· ≤ ·) := h.imp fun hlt => Std.le_of_lt hlt
  have hle' : l'.Pairwise (· ≤ ·) := h'.imp fun hlt => Std.le_of_lt hlt
  exact eq_of_perm_of_pairwise_le hle hle' ((List.perm_ext_iff_of_nodup hnodup hnodup').mpr hmem)

theorem pairwise_lt_mergeSort (h : l.Nodup) : (l.mergeSort (· ≤ ·)).Pairwise (· < ·) := by
  have hnodup : (l.mergeSort (· ≤ ·)).Nodup := (List.mergeSort_perm l _).nodup_iff.mpr h
  exact (pairwise_mergeSort l).imp₂ (fun a b hle hne => Std.lt_of_le_of_ne hle hne) hnodup

theorem filter_mergeSort (keep : String → Bool) (l : List String) :
    (l.mergeSort (· ≤ ·)).filter keep = (l.filter keep).mergeSort (· ≤ ·) := by
  have hperm : ((l.mergeSort (· ≤ ·)).filter keep).Perm ((l.filter keep).mergeSort (· ≤ ·)) :=
    ((List.mergeSort_perm l _).filter keep).trans (List.mergeSort_perm _ _).symm
  exact eq_of_perm_of_pairwise_le ((pairwise_mergeSort l).filter keep) (pairwise_mergeSort _) hperm

end Order

/-! ### The order of bytes -/

theorem utf8Bytes_eq (text : String) : utf8Bytes text = text.toList.flatMap String.utf8EncodeChar := by
  rw [utf8Bytes, String.toUTF8, ← String.utf8Encode_toList, List.utf8Encode, List.data_toByteArray]

/-- Characters in order have bytes in order, whatever comes behind them. -/
theorem utf8EncodeChar_append_lt {c d : Char} (h : c < d) (s t : List UInt8) :
    String.utf8EncodeChar c ++ s < String.utf8EncodeChar d ++ t := by
  have hlt : c.val.toNat < d.val.toNat := h
  have hmax : d.val.toNat < 1114112 := by
    have := d.valid
    simp only [UInt32.isValidChar, Nat.isValidChar] at this
    omega
  simp only [String.utf8EncodeChar]
  generalize c.val.toNat = m at hlt
  generalize d.val.toNat = n at hlt hmax
  -- Each byte is its digit above a constant, so the remainders modulo 256 are nothing to count with.
  split_ifs <;>
    simp (disch := omega) only [List.cons_append, List.nil_append, List.cons_lt_cons_iff,
      UInt8.lt_iff_toNat_lt, ← UInt8.toNat_inj, UInt8.toNat_ofNat', Nat.mod_eq_of_lt] <;>
    omega

theorem utf8Bytes_lt_of_lt {a b : String} (h : a < b) : utf8Bytes a < utf8Bytes b := by
  rw [String.lt_iff_toList_lt] at h
  rw [utf8Bytes_eq, utf8Bytes_eq]
  generalize a.toList = l at h
  generalize b.toList = l' at h
  induction l generalizing l' with
  | nil =>
      cases l' with
      | nil => exact absurd h (List.lt_irrefl _)
      | cons d l' =>
          obtain ⟨byte, bytes, hbytes⟩ :=
            List.exists_cons_of_ne_nil (String.utf8EncodeChar_ne_nil (c := d))
          rw [List.flatMap_cons, List.flatMap_nil, hbytes]
          exact List.nil_lt_cons _ _
  | cons c l ih =>
      cases l' with
      | nil => exact absurd h (List.not_lt_nil _)
      | cons d l' =>
          rw [List.flatMap_cons, List.flatMap_cons]
          rcases List.cons_lt_cons_iff.mp h with hlt | ⟨rfl, hlt⟩
          · exact utf8EncodeChar_append_lt hlt _ _
          · exact List.append_left_lt (ih _ hlt)

/-- The order of texts is that of their bytes. -/
theorem utf8Bytes_le_iff {a b : String} : utf8Bytes a ≤ utf8Bytes b ↔ a ≤ b := by
  constructor
  · intro h
    by_contra hnot
    exact h (utf8Bytes_lt_of_lt (String.not_le.mp hnot))
  · intro h hlt
    rcases eq_or_lt_of_le h with rfl | hlt'
    · exact List.lt_irrefl _ hlt
    · exact List.lt_asymm hlt (utf8Bytes_lt_of_lt hlt')

end AssetPipeline
