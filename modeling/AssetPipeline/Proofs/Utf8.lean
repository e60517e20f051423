import AssetPipeline.Proofs.Text

/-! Reading bytes as text. A character is read where its bytes stand, so a text is read from its bytes, and
from no other bytes is anything read without a gap. A byte below 128 is a character of its own wherever it
stands: what is read before it and behind it does not depend on it. -/

namespace AssetPipeline

/-- Every byte of a longer encoding has its highest bit set. -/
theorem ascii_mem_utf8EncodeChar_iff {c : Char} {b : UInt8} (hb : b < 0x80) :
    b ∈ String.utf8EncodeChar c ↔ c.toNat = b.toNat := by
  change _ ↔ c.val.toNat = b.toNat
  have hlt : b.toNat < 128 := UInt8.lt_iff_toNat_lt.mp hb
  have hvalid := c.valid
  simp only [UInt32.isValidChar, Nat.isValidChar] at hvalid
  simp only [String.utf8EncodeChar]
  generalize c.val.toNat = n at hvalid
  split_ifs <;>
    simp (disch := omega) only [List.mem_cons, List.not_mem_nil, or_false, ← UInt8.toNat_inj,
      UInt8.toNat_ofNat', Nat.mod_eq_of_lt] <;>
    omega

namespace Utf8

variable {bytes front rest : List UInt8} {b : UInt8} {c : Char} {chars : List Char}
  {bounds : List (UInt8 × UInt8)} {passed : Nat}

theorem front?_eq_some_iff : front? bytes = some c ↔ String.utf8EncodeChar c <+: bytes := by
  constructor
  · intro h
    obtain ⟨rest, hrest⟩ := ByteArray.exists_of_utf8DecodeChar?_eq_some h
    refine ⟨rest.data.toList, ?_⟩
    have hbytes := congrArg (fun array => array.data.toList) hrest
    rwa [ByteArray.data_append, Array.toList_append, List.data_toByteArray, List.data_toByteArray, eq_comm]
      at hbytes
  · rintro ⟨rest, rfl⟩
    rw [front?, List.toByteArray_append]
    exact ByteArray.utf8DecodeChar?_utf8EncodeChar_append

theorem readFrom_eq (passed : Nat) (bytes : List UInt8) : readFrom passed bytes = read (bytes.drop passed) := by
  induction bytes generalizing passed with
  | nil => cases passed <;> rfl
  | cons b bytes ih =>
      cases passed with
      | zero => rfl
      | succ passed => exact ih passed

theorem read_append (c : Char) (rest : List UInt8) :
    read (String.utf8EncodeChar c ++ rest) = some c :: read rest := by
  obtain ⟨b, bytes, hbytes⟩ := List.exists_cons_of_ne_nil (String.utf8EncodeChar_ne_nil (c := c))
  have hfront : front? (b :: (bytes ++ rest)) = some c :=
    front?_eq_some_iff.mpr (hbytes ▸ List.prefix_append _ _)
  have hlength : c.utf8Size - 1 = bytes.length := by
    rw [← String.length_utf8EncodeChar, hbytes]
    rfl
  rw [hbytes, List.cons_append, read, readFrom, hfront]
  dsimp only
  rw [readFrom_eq, hlength, List.drop_left]

theorem read_flatMap_append (chars : List Char) (rest : List UInt8) :
    read (chars.flatMap String.utf8EncodeChar ++ rest) = chars.map some ++ read rest := by
  induction chars with
  | nil => rfl
  | cons c chars ih => rw [List.flatMap_cons, List.append_assoc, read_append, ih, List.map_cons, List.cons_append]

theorem read_utf8Bytes (text : String) : read (utf8Bytes text) = text.toList.map some := by
  have hread := read_flatMap_append text.toList []
  rwa [List.append_nil, ← utf8Bytes_eq, show read [] = [] from rfl, List.append_nil] at hread

/-- A character was read from its bytes, and so was what follows it. -/
theorem read_eq_some_cons {pieces : List (Option Char)} (h : read bytes = some c :: pieces) :
    ∃ rest, bytes = String.utf8EncodeChar c ++ rest ∧ read rest = pieces := by
  cases bytes with
  | nil => cases h
  | cons b bytes =>
      rw [read, readFrom] at h
      split at h
      · rename_i d hfront
        cases h
        obtain ⟨rest, hrest⟩ := front?_eq_some_iff.mp hfront
        refine ⟨rest, hrest.symm, ?_⟩
        have hread := read_append c rest
        rw [hrest, read, readFrom, hfront] at hread
        exact (List.cons.inj hread).2.symm
      · cases h

/-- Only the bytes of a text are read without a gap. -/
theorem eq_of_read_eq (h : read bytes = chars.map some) : bytes = chars.flatMap String.utf8EncodeChar := by
  induction chars generalizing bytes with
  | nil =>
      cases bytes with
      | nil => rfl
      | cons b bytes =>
          rw [read, readFrom] at h
          split at h <;> cases h
  | cons c chars ih =>
      obtain ⟨rest, rfl, hrest⟩ := read_eq_some_cons h
      rw [ih hrest, List.flatMap_cons]

/-- What is read stands among the bytes. -/
theorem subset_of_mem_readFrom (h : some c ∈ readFrom passed bytes) : String.utf8EncodeChar c ⊆ bytes := by
  induction bytes generalizing passed with
  | nil =>
      cases passed <;> cases h
  | cons b bytes ih =>
      have htail : ∀ {passed}, some c ∈ readFrom passed bytes → String.utf8EncodeChar c ⊆ b :: bytes :=
        fun h _ hmem => List.mem_cons_of_mem b (ih h hmem)
      cases passed with
      | succ passed => exact htail h
      | zero =>
          rw [readFrom] at h
          split at h
          · rename_i d hfront
            rcases List.mem_cons.mp h with heq | h
            · cases heq
              exact (front?_eq_some_iff.mp hfront).subset
            · exact htail h
          · exact htail ((List.mem_cons.mp h).resolve_left (Option.some_ne_none c))

theorem subset_of_mem_read (h : some c ∈ read bytes) : String.utf8EncodeChar c ⊆ bytes :=
  subset_of_mem_readFrom h

/-! ### A byte that is a character of its own -/

theorem countWithin_le (bounds : List (UInt8 × UInt8)) (bytes : List UInt8) :
    countWithin bounds bytes ≤ bytes.length := by
  induction bytes generalizing bounds with
  | nil => cases bounds <;> exact Nat.le_refl 0
  | cons b bytes ih =>
      cases bounds with
      | nil => exact Nat.zero_le _
      | cons bound bounds =>
          rw [countWithin]
          split_ifs
          · exact Nat.succ_le_succ (ih bounds)
          · exact Nat.zero_le _

theorem countWithin_append_cons (hbounds : ∀ bound ∈ bounds, b < bound.1) (front rest : List UInt8) :
    countWithin bounds (front ++ b :: rest) = countWithin bounds front := by
  induction front generalizing bounds with
  | nil =>
      cases bounds with
      | nil => rfl
      | cons bound bounds =>
          have hout : ¬ (bound.1 ≤ b ∧ b ≤ bound.2) :=
            fun h => UInt8.not_le.mpr (hbounds bound List.mem_cons_self) h.1
          rw [List.nil_append, countWithin, if_neg hout]
          rfl
  | cons first front ih =>
      cases bounds with
      | nil => rfl
      | cons bound bounds =>
          rw [List.cons_append, countWithin, countWithin,
            ih fun bound hbound => hbounds bound (List.mem_cons_of_mem _ hbound)]

theorem le_of_mem_followers {first : UInt8} {bound : UInt8 × UInt8} (h : bound ∈ followers first) :
    0x80 ≤ bound.1 := by
  have hall : (followers first).all (fun bound => 0x80 ≤ bound.1) = true := by
    simp only [followers]
    split_ifs <;> rfl
  exact of_decide_eq_true (List.all_eq_true.mp hall bound h)

variable (hb : b < 0x80)
include hb

theorem countWithin_followers_append_cons (first : UInt8) (front rest : List UInt8) :
    countWithin (followers first) (front ++ b :: rest) = countWithin (followers first) front := by
  refine countWithin_append_cons (fun bound hbound => ?_) front rest
  exact UInt8.lt_of_lt_of_le hb (le_of_mem_followers hbound)

theorem front?_append_cons (hfront : front ≠ []) (rest : List UInt8) :
    front? (front ++ b :: rest) = front? front := by
  ext c
  rw [front?_eq_some_iff, front?_eq_some_iff]
  refine ⟨fun h => ?_, fun h => h.trans (List.prefix_append _ _)⟩
  rcases List.prefix_or_prefix_of_prefix h (List.prefix_append front (b :: rest)) with h' | ⟨more, hmore⟩
  · exact h'
  · cases more with
    | nil =>
        rw [List.append_nil] at hmore
        exact hmore ▸ List.prefix_refl front
    | cons next more =>
        -- Such a character would hold the byte, and then have no other.
        rw [← hmore, List.prefix_append_right_inj, List.cons_prefix_cons] at h
        have hmem : b ∈ String.utf8EncodeChar c := by simp [← hmore, h.1]
        have hsize : c.utf8Size = 1 := by
          have hchar : c.val.toNat = b.toNat := (ascii_mem_utf8EncodeChar_iff hb).mp hmem
          rw [Char.utf8Size_eq_one_iff, UInt32.le_iff_toNat_le, hchar]
          exact Nat.le_of_lt_succ (UInt8.lt_iff_toNat_lt.mp hb)
        have hlength := String.length_utf8EncodeChar c
        rw [hsize, ← hmore, List.length_append, List.length_cons] at hlength
        have hpos := List.length_pos_iff.mpr hfront
        omega

theorem readFrom_append_cons (hpassed : passed ≤ front.length) (rest : List UInt8) :
    readFrom passed (front ++ b :: rest) = readFrom passed front ++ read (b :: rest) := by
  induction front generalizing passed with
  | nil =>
      cases Nat.le_zero.mp hpassed
      rfl
  | cons first front ih =>
      cases passed with
      | succ passed => exact ih (Nat.le_of_succ_le_succ hpassed)
      | zero =>
          have hwithin := countWithin_followers_append_cons hb first front rest
          have hfront := front?_append_cons hb (List.cons_ne_nil first front) rest
          rw [List.cons_append] at hfront
          rw [List.cons_append, readFrom, readFrom, hfront, hwithin]
          cases hchar : front? (first :: front) with
          | none =>
              dsimp only
              rw [ih (countWithin_le _ _), List.cons_append]
          | some c =>
              have hle := (front?_eq_some_iff.mp hchar).length_le
              rw [String.length_utf8EncodeChar, List.length_cons] at hle
              dsimp only
              rw [ih (Nat.sub_le_of_le_add hle), List.cons_append]

theorem read_append_cons (front rest : List UInt8) :
    read (front ++ b :: rest) = read front ++ read (b :: rest) :=
  readFrom_append_cons hb (Nat.zero_le _) rest

end Utf8

end AssetPipeline
