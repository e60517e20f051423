import AssetPipeline.Files.Listing
import AssetPipeline.Proofs.Utf8

/-! Paths of bytes and paths of characters. The bytes that mean something to the system are characters of
their own, so a path that a text spells has the segments that the text has, and what a path shows as is put
together from what its segments show as. Names that are no text show as something else than they are. -/

namespace AssetPipeline

namespace RawPath

variable {text other : String} {path name : RawPath} {names : List RawPath} {b : UInt8} {c : Char}

/-! ### Paths that texts spell -/

theorem bytes_ofString (text : String) :
    (text : RawPath).bytes = text.toList.flatMap String.utf8EncodeChar :=
  utf8Bytes_eq text

@[simp] theorem ofString_inj : (text : RawPath) = other ↔ text = other := by
  refine ⟨fun h => ?_, fun h => h ▸ rfl⟩
  have hread := congrArg (fun path => Utf8.read path.bytes) h
  change Utf8.read (utf8Bytes text) = Utf8.read (utf8Bytes other) at hread
  rw [Utf8.read_utf8Bytes, Utf8.read_utf8Bytes, List.map_inj_right fun _ _ => Option.some.inj] at hread
  exact String.toList_injective hread

theorem eq_empty_iff : path = "" ↔ path.bytes = [] := by
  exact RawPath.ext_iff

@[simp] theorem size_ofString (text : String) : (text : RawPath).size = text.utf8ByteSize := by
  rw [size, ofString, utf8Bytes, Array.length_toList]
  rfl

/-- A byte below 128 is in the bytes of a text for a character of its own. -/
theorem mem_bytes_ofString_iff (hb : b < 0x80) (hc : c.toNat = b.toNat) :
    b ∈ (text : RawPath).bytes ↔ c ∈ text.toList := by
  rw [bytes_ofString, List.mem_flatMap]
  simp only [ascii_mem_utf8EncodeChar_iff hb, ← hc, Char.toNat_inj]
  simp

theorem slash_mem_ofString_iff : slash ∈ (text : RawPath).bytes ↔ '/' ∈ text.toList :=
  mem_bytes_ofString_iff (by decide) (by decide)

theorem zero_mem_ofString_iff : 0 ∈ (text : RawPath).bytes ↔ '\x00' ∈ text.toList :=
  mem_bytes_ofString_iff (by decide) (by decide)

theorem head?_ofString_iff : (text : RawPath).bytes.head? = some slash ↔ text.toList.head? = some '/' := by
  rw [bytes_ofString]
  cases text.toList with
  | nil => simp
  | cons c chars =>
      rw [List.flatMap_cons, List.head?_append_of_ne_nil _ String.utf8EncodeChar_ne_nil, List.head?_cons,
        Option.some.injEq]
      constructor
      · intro h
        have hmem := (ascii_mem_utf8EncodeChar_iff (by decide)).mp (List.mem_of_mem_head? h)
        exact Char.toNat_inj.mp hmem
      · rintro rfl
        decide

/-- Bytes are cut at slashes where characters are. -/
theorem splitOn_flatMap (chars : List Char) :
    (chars.flatMap String.utf8EncodeChar).splitOn slash =
      (chars.splitOn '/').map (·.flatMap String.utf8EncodeChar) := by
  have hslash : ∀ {front : List Char}, '/' ∉ front → slash ∉ front.flatMap String.utf8EncodeChar := by
    intro front hfront hmem
    obtain ⟨c, hc, hmem⟩ := List.mem_flatMap.mp hmem
    have hchar : c = '/' := Char.toNat_inj.mp ((ascii_mem_utf8EncodeChar_iff (by decide)).mp hmem)
    exact hfront (hchar ▸ hc)
  have hsingle : String.utf8EncodeChar '/' = [slash] := by decide
  induction chars using splitOn_induction '/' with
  | piece chars hchars =>
      rw [List.splitOn_eq_singleton (hslash hchars), List.splitOn_eq_singleton hchars, List.map_singleton]
  | cut front rest hfront ih =>
      rw [List.flatMap_append, List.flatMap_cons, hsingle, List.singleton_append,
        List.splitOn_append_cons_self, List.splitOn_append_cons_self, ih, List.map_append,
        List.splitOn_eq_singleton (hslash hfront), List.splitOn_eq_singleton hfront, List.map_singleton]

theorem segments_ofString (text : String) :
    (text : RawPath).segments = (Path.segments text).map ofString := by
  rw [segments, Path.segments, Chars.splitOn_eq, Chars.splitOn_eq, bytes_ofString, splitOn_flatMap,
    List.map_map, List.map_map]
  refine List.map_congr_left fun piece _ => ?_
  rw [Function.comp_apply, Function.comp_apply, ofString, utf8Bytes_eq, String.toList_ofList]

theorem join_cons_cons (name next : RawPath) (names : List RawPath) :
    (join (name :: next :: names)).bytes = name.bytes ++ slash :: (join (next :: names)).bytes := by
  rw [join, join, List.map_cons, List.map_cons, List.intercalate_cons_cons, List.append_assoc]
  rfl

/-! ### What paths show as -/

theorem toList_shown (path : RawPath) : path.shown.toList = (Utf8.read path.bytes).map (·.getD '\uFFFD') :=
  String.toList_ofList

@[simp] theorem shown_ofString (text : String) : (text : RawPath).shown = text := by
  rw [← String.toList_inj, toList_shown, ofString, Utf8.read_utf8Bytes, List.map_map]
  exact List.map_id _

/-- Bytes that are read without a gap are those of the text that they show as. -/
theorem ofString_shown (h : none ∉ Utf8.read path.bytes) : (path.shown : RawPath) = path := by
  have hread : Utf8.read path.bytes = path.shown.toList.map some := by
    rw [toList_shown, List.map_map]
    refine ((List.map_congr_left fun piece hpiece => ?_).trans (List.map_id _)).symm
    cases piece with
    | none => exact absurd hpiece h
    | some c => rfl
  ext1
  rw [bytes_ofString]
  exact (Utf8.eq_of_read_eq hread).symm

theorem text?_eq_some_iff : path.text? = some text ↔ path = text := by
  rw [text?]
  constructor
  · intro h
    split_ifs at h with hall
    cases h
    exact (ofString_shown fun hnone => absurd (List.all_eq_true.mp hall none hnone) (by decide)).symm
  · rintro rfl
    rw [shown_ofString, ofString, Utf8.read_utf8Bytes, if_pos (by simp)]

/-- A text without replacement characters is shown by nothing but itself. -/
theorem shown_eq_iff (h : '\uFFFD' ∉ text.toList) : path.shown = text ↔ path = text := by
  constructor
  · rintro rfl
    refine (ofString_shown fun hnone => h ?_).symm
    rw [toList_shown]
    exact List.mem_map.mpr ⟨none, hnone, rfl⟩
  · rintro rfl
    exact shown_ofString text

/-- A path shows as what its names show as, with slashes between them. -/
theorem shown_join (names : List RawPath) : (join names).shown = "/".intercalate (names.map shown) := by
  have hsingle : String.utf8EncodeChar '/' = [slash] := by decide
  rw [← String.toList_inj, String.toList_intercalate]
  induction names with
  | nil => rfl
  | cons name names ih =>
      cases names with
      | nil => simp [join, toList_shown]
      | cons next names =>
          have hread := Utf8.read_append '/' (join (next :: names)).bytes
          rw [hsingle, List.singleton_append] at hread
          rw [toList_shown, join_cons_cons, Utf8.read_append_cons (by decide), hread, List.map_append,
            List.map_cons, ← toList_shown, ← toList_shown, ih]
          simp

/-- What has no slash does not show one. -/
theorem slash_notMem_shown (h : slash ∉ path.bytes) : '/' ∉ path.shown.toList := by
  rw [toList_shown, List.mem_map]
  rintro ⟨piece, hpiece, hslash⟩
  cases piece with
  | none => exact absurd hslash (by decide)
  | some c =>
      cases hslash
      exact h (Utf8.subset_of_mem_read hpiece (by decide))

/-! ### Hidden names -/

theorem isHidden_iff : isHidden name = true ↔ ∃ text : String, name = text ∧ Path.isHidden text = true := by
  rw [isHidden, Option.any_eq_true]
  simp only [text?_eq_some_iff]

@[simp] theorem isHidden_ofString (text : String) : isHidden text = Path.isHidden text := by
  rw [Bool.eq_iff_iff, isHidden_iff]
  simp

end RawPath

/-- The steps of a path that a text spells are the segments of the text. -/
theorem Route.parse_ofString (path : String) : parse path =
    if path.toList.contains '\x00' then .error .nulInPath
    else if path = "" then .error .notFound
    else if maxPathBytes < path.utf8ByteSize then .error .nameTooLong
    else
      .ok ⟨path.toList.head? = some '/', ((Path.segments path).filter (· ≠ "")).map RawPath.ofString,
        (Path.segments path).getLast? = some ""⟩ := by
  have hnul : (path : RawPath).bytes.contains 0 = path.toList.contains '\x00' := by
    rw [Bool.eq_iff_iff, List.contains_iff_mem, List.contains_iff_mem, RawPath.zero_mem_ofString_iff]
  have hfilter : ((Path.segments path).map RawPath.ofString).filter (· ≠ ("" : RawPath)) =
      ((Path.segments path).filter (· ≠ "")).map RawPath.ofString := by
    rw [List.filter_map]
    simp [Function.comp_def]
  have hlast : ((Path.segments path).map RawPath.ofString).getLast? = some ("" : RawPath) ↔
      (Path.segments path).getLast? = some "" := by
    rw [List.getLast?_map, Option.map_eq_some_iff]
    simp
  rw [parse, hnul, RawPath.size_ofString, RawPath.segments_ofString]
  simp only [RawPath.ofString_inj, hfilter, hlast, RawPath.head?_ofString_iff]

end AssetPipeline
