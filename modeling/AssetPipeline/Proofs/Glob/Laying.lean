import AssetPipeline.Proofs.Glob.Segments

/-! Segments of a pattern over those of a path. Behind a separator, the tokens of a pattern stand for a row
of segments with a slash before each; so a path is taken with a slash in front of it, and a `**` that a
pattern begins with as one behind a slash. -/

namespace AssetPipeline.Glob

section Laying

variable {segments : List Segment} {pieces : List Piece} {path skipped rest : List Bytes} {text : Bytes}

theorem lays_deep_iff (hmore : segments ≠ []) : Lays (.deep :: segments) path ↔
    ∃ skipped rest, path = skipped ++ rest ∧ Lays segments rest := by
  constructor
  · intro h
    cases h with
    | deep skipped _ hrest => exact ⟨skipped, _, rfl, hrest⟩
    | deepLast => exact absurd rfl hmore
  · rintro ⟨skipped, rest, rfl, hrest⟩
    exact .deep skipped hmore hrest

theorem lays_nil_iff : Lays [] path ↔ path = [] := by
  constructor
  · intro h
    cases h
    rfl
  · rintro rfl
    exact .nil

theorem lays_deepLast_iff : Lays [.deep] path ↔ path ≠ [] := by
  constructor
  · intro h
    cases h with
    | deep _ hmore => exact absurd rfl hmore
    | deepLast hne => exact hne
  · exact .deepLast

theorem lays_plain_iff : Lays (.plain pieces :: segments) path ↔
    ∃ bytes rest, path = bytes :: rest ∧ Covers pieces bytes ∧ Lays segments rest := by
  constructor
  · intro h
    cases h with
    | plain h hrest => exact ⟨_, _, rfl, h, hrest⟩
  · rintro ⟨bytes, rest, rfl, h, hrest⟩
    exact .plain h hrest

/-- Two `**` in a row cover what one covers. -/
theorem lays_deep_deep_iff : Lays (.deep :: .deep :: segments) path ↔ Lays (.deep :: segments) path := by
  rw [lays_deep_iff (List.cons_ne_nil _ _)]
  constructor
  · rintro ⟨skipped, rest, rfl, h⟩
    cases h with
    | deep skipped' hmore h =>
        rw [← List.append_assoc]
        exact .deep _ hmore h
    | deepLast hne => exact .deepLast (List.append_ne_nil_of_right_ne_nil _ hne)
  · exact fun h => ⟨[], path, rfl, h⟩

/-- A slash before each segment of a path. -/
def rooted (path : List Bytes) : Bytes :=
  path.flatMap (slash :: ·)

@[simp] theorem rooted_nil : rooted [] = [] := rfl

@[simp] theorem rooted_cons (bytes : Bytes) (path : List Bytes) :
    rooted (bytes :: path) = slash :: (bytes ++ rooted path) := rfl

@[simp] theorem rooted_append (path rest : List Bytes) : rooted (path ++ rest) = rooted path ++ rooted rest :=
  List.flatMap_append

/-- A slash in a path stands before a segment. -/
theorem exists_of_rooted_eq_append {u v : Bytes} (hpath : ∀ bytes ∈ path, slash ∉ bytes)
    (h : rooted path = u ++ slash :: v) :
    ∃ skipped rest, path = skipped ++ rest ∧ u = rooted skipped ∧ slash :: v = rooted rest := by
  induction path generalizing u with
  | nil => simp at h
  | cons bytes path ih =>
      rw [List.forall_mem_cons] at hpath
      cases u with
      | nil => exact ⟨[], bytes :: path, rfl, rfl, h.symm⟩
      | cons b u =>
          rw [rooted_cons, List.cons_append] at h
          obtain ⟨rfl, htail⟩ := List.cons.inj h
          rcases List.append_eq_append_iff.mp htail with ⟨w, rfl, hbelow⟩ | ⟨w, hbytes, hbelow⟩
          · obtain ⟨skipped, rest, rfl, rfl, hrest⟩ := ih hpath.2 hbelow
            exact ⟨bytes :: skipped, rest, rfl, rfl, hrest⟩
          · cases w with
            | nil => exact ⟨[bytes], path, rfl, by simp [hbytes], hbelow⟩
            | cons b w =>
                obtain ⟨rfl, -⟩ := List.cons.inj hbelow
                rw [hbytes] at hpath
                exact absurd (List.mem_append_right _ List.mem_cons_self) hpath.1

/-- What begins with a slash, or is empty, begins where the bytes before it end. -/
theorem append_inj_of_slash {s u v w : Bytes} (hs : slash ∉ s) (hu : slash ∉ u)
    (hv : v = [] ∨ v.head? = some slash) (hw : w = [] ∨ w.head? = some slash) (h : s ++ v = u ++ w) :
    s = u ∧ v = w := by
  rcases List.append_eq_append_iff.mp h with ⟨c, rfl, rfl⟩ | ⟨c, rfl, rfl⟩ <;> cases c with
  | nil => simp
  | cons b c => simp_all

theorem rooted_eq_nil_or_head? (path : List Bytes) : rooted path = [] ∨ (rooted path).head? = some slash := by
  cases path with
  | nil => exact .inl rfl
  | cons bytes path => exact .inr rfl

/-! ### Tokens over a path -/

/-- The bytes of a character other than the slash hold none. -/
theorem slash_mem_utf8_iff {c : Char} : slash ∈ utf8 c ↔ c = '/' := by
  have hslash : slash.toNat = '/'.toNat := by decide
  rw [utf8, ascii_mem_utf8EncodeChar_iff (by decide), hslash, Char.toNat_inj]

theorem stands_token_iff {piece : Piece} (hordinary : ∀ c, piece = .char c → IsOrdinary c) :
    piece.token.Stands text ↔ slash ∉ text ∧ Covers [piece] text := by
  cases piece with
  | one =>
      rw [Piece.token, stands_any_iff]
      constructor
      · rintro ⟨b, rfl, hb⟩
        exact ⟨by simpa using hb.symm, .one b .nil⟩
      · rintro ⟨hslash, h⟩
        cases h with
        | one b h =>
            cases h
            exact ⟨b, rfl, by simpa [eq_comm] using hslash⟩
  | run =>
      rw [Piece.token, stands_star_iff]
      refine ⟨fun h => ⟨h, ?_⟩, And.left⟩
      rw [← List.append_nil text]
      exact .run text .nil
  | char c =>
      rw [Piece.token, stands_literal_iff]
      constructor
      · rintro rfl
        refine ⟨fun h => ?_, ?_⟩
        · rw [slash_mem_utf8_iff] at h
          exact hordinary c rfl (h ▸ List.mem_cons_self)
        · rw [← List.append_nil (utf8 c)]
          exact .char c .nil
      · rintro ⟨-, h⟩
        cases h with
        | char c h =>
            cases h
            exact List.append_nil _

theorem covers_cons_iff {piece : Piece} :
    Covers (piece :: pieces) text ↔ ∃ u v, text = u ++ v ∧ Covers [piece] u ∧ Covers pieces v := by
  constructor
  · intro h
    cases h with
    | one b h => exact ⟨[b], _, rfl, .one b .nil, h⟩
    | run u h => exact ⟨u, _, rfl, by simpa using Covers.run u .nil, h⟩
    | char c h => exact ⟨utf8 c, _, rfl, by simpa using Covers.char c .nil, h⟩
  · rintro ⟨u, v, rfl, hu, hv⟩
    cases hu with
    | one b h =>
        cases h
        exact .one b hv
    | run u h =>
        cases h
        rw [List.append_nil]
        exact .run u hv
    | char c h =>
        cases h
        rw [List.append_nil]
        exact .char c hv

/-- The tokens of a plain segment stand for what its pieces cover, within one segment of a path. -/
theorem standFor_pieces_iff (hordinary : ∀ c, .char c ∈ pieces → IsOrdinary c) :
    StandFor (pieces.map Piece.token) text ↔ slash ∉ text ∧ Covers pieces text := by
  induction pieces generalizing text with
  | nil =>
      rw [List.map_nil, standFor_nil_iff]
      constructor
      · rintro rfl
        exact ⟨List.not_mem_nil, .nil⟩
      · rintro ⟨-, h⟩
        cases h
        rfl
  | cons piece pieces ih =>
      have hfirst : ∀ c, piece = .char c → IsOrdinary c := by
        rintro c rfl
        exact hordinary c List.mem_cons_self
      rw [List.map_cons, standFor_cons_iff, covers_cons_iff]
      simp only [stands_token_iff hfirst, ih fun c hc => hordinary c (List.mem_cons_of_mem _ hc)]
      constructor
      · rintro ⟨u, v, rfl, ⟨hu, hpiece⟩, hv, hpieces⟩
        exact ⟨by simp [hu, hv], u, v, rfl, hpiece, hpieces⟩
      · rintro ⟨hslash, u, v, rfl, hpiece, hpieces⟩
        rw [List.mem_append, not_or] at hslash
        exact ⟨u, v, rfl, ⟨hslash.1, hpiece⟩, hslash.2, hpieces⟩

/-- A token that stands only for what begins with a slash. -/
def IsRooted (t : Token) : Prop :=
  ∀ text, t.Stands text → text.head? = some slash

theorem isRooted_slash : IsRooted (.literal '/') := by
  intro text h
  rw [stands_literal_iff.mp h]
  rfl

theorem isRooted_anyBetween : IsRooted .anyBetween := by
  intro text h
  obtain ⟨v, rfl, -⟩ := stands_anyBetween_iff.mp h
  rfl

theorem isRooted_anyBelow : IsRooted .anyBelow := by
  intro text h
  obtain ⟨v, rfl⟩ := stands_anyBelow_iff.mp h
  rfl

theorem IsRooted.widened {last : Token} (h : IsRooted last) : IsRooted (widened last segments) := by
  cases last with
  | anyBefore => exact h
  | _ =>
      cases segments with
      | nil => exact isRooted_anyBelow
      | cons segment segments => exact isRooted_anyBetween

/-- Tokens after a separator stand for what begins with one. -/
theorem IsRooted.head? {last : Token} (hlast : IsRooted last)
    (h : StandFor (tokensAfter last segments) text) : text.head? = some slash := by
  induction segments generalizing last with
  | nil => exact hlast text (standFor_singleton_iff.mp h)
  | cons segment segments ih =>
      cases segment with
      | deep => exact ih hlast.widened h
      | plain pieces =>
          obtain ⟨u, v, rfl, hu, -⟩ := standFor_cons_iff.mp h
          rw [List.head?_append, hlast u hu]
          rfl

theorem standFor_slash_cons_iff {ts : List Token} :
    StandFor (.literal '/' :: ts) text ↔ ∃ v, text = slash :: v ∧ StandFor ts v := by
  have hslash : utf8 '/' = [slash] := by decide
  simp only [standFor_cons_iff, stands_literal_iff, hslash]
  constructor
  · rintro ⟨_, v, rfl, rfl, hv⟩
    exact ⟨v, rfl, hv⟩
  · rintro ⟨v, rfl, hv⟩
    exact ⟨[slash], v, rfl, rfl, hv⟩

theorem standFor_anyBetween_cons_iff {ts : List Token} :
    StandFor (.anyBetween :: ts) text ↔ ∃ v, text = slash :: v ∧ StandFor (.anyBefore :: ts) v := by
  simp only [standFor_cons_iff, stands_anyBetween_iff]
  constructor
  · rintro ⟨_, v, rfl, ⟨u, rfl, hu⟩, hv⟩
    exact ⟨u ++ v, rfl, u, v, rfl, hu, hv⟩
  · rintro ⟨_, rfl, u, v, rfl, hu, hv⟩
    exact ⟨slash :: u, v, rfl, ⟨u, rfl, hu⟩, hv⟩

/-- A plain segment after a separator takes the first segment of a path. -/
theorem standFor_plain_iff {ts : List Token} (hordinary : ∀ c, .char c ∈ pieces → IsOrdinary c)
    (hts : ∀ v, StandFor ts v → v = [] ∨ v.head? = some slash) (hpath : ∀ bytes ∈ path, slash ∉ bytes) :
    StandFor (.literal '/' :: (pieces.map Piece.token ++ ts)) (rooted path) ↔
      ∃ bytes rest, path = bytes :: rest ∧ Covers pieces bytes ∧ StandFor ts (rooted rest) := by
  simp only [standFor_slash_cons_iff, standFor_append_iff, standFor_pieces_iff hordinary]
  constructor
  · rintro ⟨_, hrooted, u, v, rfl, ⟨hu, hcovers⟩, hv⟩
    cases path with
    | nil => cases hrooted
    | cons bytes path =>
        rw [List.forall_mem_cons] at hpath
        obtain ⟨rfl, rfl⟩ := append_inj_of_slash hpath.1 hu (rooted_eq_nil_or_head? path) (hts v hv)
          (List.cons.inj hrooted).2
        exact ⟨_, path, rfl, hcovers, hv⟩
  · rintro ⟨bytes, rest, rfl, hcovers, hv⟩
    exact ⟨_, rfl, bytes, _, rfl, ⟨hpath _ List.mem_cons_self, hcovers⟩, hv⟩

/-- `**` between separators passes over some segments of a path. -/
theorem standFor_between_iff {ts : List Token} (hpath : ∀ bytes ∈ path, slash ∉ bytes) :
    StandFor (.anyBetween :: ts) (rooted path) ↔
      ∃ skipped rest, path = skipped ++ rest ∧ StandFor (.literal '/' :: ts) (rooted rest) := by
  simp only [standFor_anyBetween_cons_iff, standFor_slash_cons_iff]
  simp only [standFor_cons_iff, stands_anyBefore_iff]
  constructor
  · rintro ⟨_, hrooted, _, v, rfl, rfl | ⟨u, rfl⟩, hv⟩
    · exact ⟨[], path, rfl, v, hrooted, hv⟩
    · rw [List.append_assoc, ← List.cons_append] at hrooted
      obtain ⟨skipped, rest, rfl, -, hrest⟩ := exists_of_rooted_eq_append hpath hrooted
      exact ⟨skipped, rest, rfl, v, hrest.symm, hv⟩
  · rintro ⟨skipped, rest, rfl, v, hrest, hv⟩
    rw [rooted_append, hrest]
    cases skipped with
    | nil => exact ⟨v, rfl, [], v, rfl, .inl rfl, hv⟩
    | cons bytes skipped =>
        exact ⟨bytes ++ rooted skipped ++ slash :: v, rfl, bytes ++ rooted skipped ++ [slash], v, by simp,
          .inr ⟨_, rfl⟩, hv⟩

/-- The tokens of segments after a separator stand for the paths that the segments can be laid over. With
`**` in the place of the separator, they are laid so behind a `**`. -/
theorem standFor_tokensAfter_iff (hne : segments ≠ [])
    (hplain : ∀ pieces, .plain pieces ∈ segments → IsPlain pieces) (hpath : ∀ bytes ∈ path, slash ∉ bytes) :
    (StandFor (tokensAfter (.literal '/') segments) (rooted path) ↔ Lays segments path) ∧
      (StandFor (tokensAfter .anyBetween segments) (rooted path) ↔ Lays (.deep :: segments) path) := by
  induction segments generalizing path with
  | nil => exact absurd rfl hne
  | cons segment segments ih =>
      have hplain' : ∀ pieces, .plain pieces ∈ segments → IsPlain pieces :=
        fun pieces hmem => hplain pieces (List.mem_cons_of_mem _ hmem)
      cases segment with
      | deep =>
          rw [lays_deep_deep_iff]
          cases segments with
          | nil =>
              have hbelow : StandFor [.anyBelow] (rooted path) ↔ path ≠ [] := by
                rw [standFor_singleton_iff, stands_anyBelow_iff]
                cases path <;> simp
              rw [lays_deepLast_iff]
              exact ⟨hbelow, hbelow⟩
          | cons next segments =>
              have hbetween := (ih (List.cons_ne_nil _ _) hplain' hpath).2
              exact ⟨hbetween, hbetween⟩
      | plain pieces =>
          have hpieces := hplain pieces List.mem_cons_self
          have hthen : ∀ rest, (∀ bytes ∈ rest, slash ∉ bytes) →
              (StandFor (if segments = [] then [] else tokensAfter (.literal '/') segments) (rooted rest) ↔
                Lays segments rest) := by
            intro rest hrest
            split_ifs with hmore
            · rw [standFor_nil_iff, hmore, lays_nil_iff]
              cases rest <;> simp
            · exact (ih hmore hplain' hrest).1
          have hbegins : ∀ v, StandFor (if segments = [] then [] else tokensAfter (.literal '/') segments) v →
              v = [] ∨ v.head? = some slash := by
            intro v hv
            split_ifs at hv
            · exact .inl (standFor_nil_iff.mp hv)
            · exact .inr (isRooted_slash.head? hv)
          have hslash : ∀ path, (∀ bytes ∈ path, slash ∉ bytes) →
              (StandFor (tokensAfter (.literal '/') (.plain pieces :: segments)) (rooted path) ↔
                Lays (.plain pieces :: segments) path) := by
            intro path hpath
            rw [tokensAfter, lays_plain_iff, standFor_plain_iff hpieces.ordinary hbegins hpath]
            refine exists_congr fun bytes => exists_congr fun rest => and_congr_right fun hsplit => ?_
            rw [hthen rest fun bytes hbytes => hpath bytes (hsplit ▸ List.mem_cons_of_mem _ hbytes)]
          refine ⟨hslash path hpath, ?_⟩
          rw [lays_deep_iff (List.cons_ne_nil _ _), tokensAfter, standFor_between_iff hpath]
          refine exists_congr fun skipped => exists_congr fun rest => and_congr_right fun hsplit => ?_
          exact hslash rest fun bytes hbytes => hpath bytes (hsplit ▸ List.mem_append_right _ hbytes)

/-- In front of a pattern, `**` stands for what it would stand for behind a slash. -/
theorem standFor_anyBefore_iff (hplain : ∀ pieces, .plain pieces ∈ segments → IsPlain pieces)
    (h : ∃ pieces, .plain pieces ∈ segments) :
    (StandFor (tokensAfter .anyBefore segments) text ↔
      StandFor (tokensAfter .anyBetween segments) (slash :: text)) ∧
    tokensAfter .anyBefore segments ≠ [.anyBefore] := by
  induction segments with
  | nil =>
      obtain ⟨pieces, h⟩ := h
      cases h
  | cons segment segments ih =>
      cases segment with
      | deep =>
          obtain ⟨pieces, hpieces⟩ := h
          have hmem : .plain pieces ∈ segments := by simpa using hpieces
          obtain ⟨next, segments, rfl⟩ := List.exists_cons_of_ne_nil (List.ne_nil_of_mem hmem)
          exact ih (fun pieces hmem => hplain pieces (List.mem_cons_of_mem _ hmem)) ⟨pieces, hmem⟩
      | plain pieces =>
          rw [tokensAfter, tokensAfter, standFor_anyBetween_cons_iff]
          refine ⟨⟨fun h => ⟨text, rfl, h⟩, ?_⟩, ?_⟩
          · rintro ⟨v, heq, h⟩
            cases heq
            exact h
          · intro heq
            have hnil := (List.append_eq_nil_iff.mp (List.cons.inj heq).2).1
            exact (hplain pieces List.mem_cons_self).ne_nil (List.map_eq_nil_iff.mp hnil)

/-- Where every segment is `**`, one token is left, and the segments cover all paths but the empty one. -/
theorem tokensAfter_anyBefore_of_deep (h : ∀ pieces, .plain pieces ∉ segments) :
    tokensAfter .anyBefore segments = [.anyBefore] ∧ (Lays (.deep :: segments) path ↔ path ≠ []) := by
  induction segments with
  | nil => exact ⟨rfl, lays_deepLast_iff⟩
  | cons segment segments ih =>
      cases segment with
      | deep =>
          rw [lays_deep_deep_iff]
          exact ih fun pieces hmem => h pieces (List.mem_cons_of_mem _ hmem)
      | plain pieces => exact absurd List.mem_cons_self (h pieces)

end Laying

/-- The bytes of a path, after a slash. -/
theorem rooted_map_utf8Bytes {names : List String} (hne : names ≠ []) :
    rooted (names.map utf8Bytes) = slash :: utf8Bytes ("/".intercalate names) := by
  induction names with
  | nil => exact absurd rfl hne
  | cons name names ih =>
      cases names with
      | nil => simp
      | cons next names =>
          have hcons : ("/".intercalate (name :: next :: names)).toList =
              name.toList ++ '/' :: ("/".intercalate (next :: names)).toList := by
            simp [String.toList_intercalate]
          have hslash : String.utf8EncodeChar '/' = [slash] := by decide
          rw [List.map_cons, rooted_cons, ih (List.cons_ne_nil _ _), utf8Bytes_eq name,
            utf8Bytes_eq ("/".intercalate (next :: names)), utf8Bytes_eq, hcons, List.flatMap_append,
            List.flatMap_cons, hslash, List.singleton_append]

/-- What the tokens of a pattern accept. -/
theorem accepts_tokensOf_iff {segments : List Segment} (hne : segments ≠ [])
    (hplain : ∀ pieces, .plain pieces ∈ segments → IsPlain pieces) {path : String} {parts : List Bytes}
    (hparts : ∀ bytes ∈ parts, slash ∉ bytes) (hrooted : rooted parts = slash :: utf8Bytes path) :
    Glob.accepts ⟨tokensOf segments⟩ path = true ↔ Lays segments parts := by
  obtain ⟨segment, segments, rfl⟩ := List.exists_cons_of_ne_nil hne
  have hplain' : ∀ pieces, .plain pieces ∈ segments → IsPlain pieces :=
    fun pieces hmem => hplain pieces (List.mem_cons_of_mem _ hmem)
  cases segment with
  | plain pieces =>
      have hpieces := (hplain pieces List.mem_cons_self).ne_nil
      have htokens : tokensOf (.plain pieces :: segments) ≠ [.anyBefore] := by
        obtain ⟨piece, pieces, rfl⟩ := List.exists_cons_of_ne_nil hpieces
        intro heq
        have hhead : piece.token = .anyBefore := (List.cons.inj heq).1
        cases piece <;> cases hhead
      have hafter : tokensAfter (.literal '/') (.plain pieces :: segments) =
          .literal '/' :: tokensOf (.plain pieces :: segments) := rfl
      have haccepts : Glob.accepts ⟨tokensOf (.plain pieces :: segments)⟩ path = true ↔
          StandFor (tokensOf (.plain pieces :: segments)) (utf8Bytes path) := accepts_iff_standFor htokens
      rw [haccepts, ← (standFor_tokensAfter_iff hne hplain hparts).1, hrooted, hafter,
        standFor_slash_cons_iff]
      simp
  | deep =>
      have htokens : tokensOf (.deep :: segments) = tokensAfter .anyBefore segments := rfl
      by_cases hdeep : ∃ pieces, .plain pieces ∈ segments
      · obtain ⟨pieces, hmem⟩ := hdeep
        have hmore : segments ≠ [] := List.ne_nil_of_mem hmem
        obtain ⟨hiff, hne⟩ := standFor_anyBefore_iff hplain' ⟨pieces, hmem⟩
        rw [accepts_iff_standFor (htokens ▸ hne), htokens, hiff, ← hrooted,
          (standFor_tokensAfter_iff hmore hplain' hparts).2]
      · obtain ⟨honly, hlays⟩ : tokensAfter .anyBefore segments = [.anyBefore] ∧
            (Lays (.deep :: segments) parts ↔ parts ≠ []) :=
          tokensAfter_anyBefore_of_deep (not_exists.mp hdeep)
        have hpath : parts ≠ [] := by
          rintro rfl
          cases hrooted
        rw [hlays, htokens, honly]
        exact iff_of_true ((Shape.accepts_iff_holds _ _).mpr (Shape.anything_holds _)) hpath

/-- A pattern is read, and it matches a path if its segments can be laid over those of the path. -/
theorem matches_iff_lays {segments : List Segment} (hne : segments ≠ [])
    (hplain : ∀ pieces, .plain pieces ∈ segments → IsPlain pieces) {names : List String} (hnames : names ≠ [])
    (hsegments : ∀ name ∈ names, '/' ∉ name.toList ∧ '\\' ∉ name.toList) :
    ∃ answer, Glob.matches ("/".intercalate names) (patternOf segments) = .ok answer ∧
      (answer = true ↔ Lays segments (names.map utf8Bytes)) := by
  have hcompile : Glob.compile (patternOf segments) = .ok ⟨tokensOf segments⟩ := by
    rw [Glob.compile, parse_patternOf hne hplain]
    rfl
  have hslashed : Path.slashed ("/".intercalate names) = "/".intercalate names :=
    Path.slashed_intercalate fun name hname => (hsegments name hname).2
  have hparts : ∀ bytes ∈ names.map utf8Bytes, slash ∉ bytes := by
    intro bytes hbytes
    obtain ⟨name, hname, rfl⟩ := List.mem_map.mp hbytes
    rw [utf8Bytes_eq, List.mem_flatMap]
    rintro ⟨c, hc, hmem⟩
    exact (hsegments name hname).1 (slash_mem_utf8_iff.mp hmem ▸ hc)
  refine ⟨_, by rw [Glob.matches, hcompile, hslashed]; rfl, ?_⟩
  exact accepts_tokensOf_iff hne hplain hparts (rooted_map_utf8Bytes hnames)

/-- Two `**`, one of them in last place, about a segment with both wildcards. -/
def galleryPattern : List Segment :=
  [.deep, .plain [.char 'a', .run, .one], .deep]

theorem matches_iff_lays_gallery : Glob.matches "x/art/y/z" "**/a*?/**" = .ok true := by
  have hpattern : patternOf galleryPattern = "**/a*?/**" := by decide
  have hpath : "/".intercalate ["x", "art", "y", "z"] = "x/art/y/z" := by decide
  have hbytes : ["x", "art", "y", "z"].map utf8Bytes = [[120], [97, 114, 116], [121], [122]] := by
    decide
  have hplain : ∀ pieces, .plain pieces ∈ galleryPattern → IsPlain pieces := by
    intro pieces hmem
    have hpieces : pieces = [.char 'a', .run, .one] := by simpa [galleryPattern] using hmem
    subst hpieces
    exact ⟨by decide, by simp [IsOrdinary], by decide⟩
  have hne : galleryPattern ≠ [] := List.cons_ne_nil _ _
  obtain ⟨answer, hanswer, hiff⟩ := matches_iff_lays hne hplain
    (List.cons_ne_nil "x" ["art", "y", "z"]) (by decide)
  have hcovers : Covers [.char 'a', .run, .one] [97, 114, 116] := .char 'a' (.run [114] (.one 116 .nil))
  rw [hpattern, hpath] at hanswer
  rw [hanswer, hiff.mpr]
  rw [hbytes, galleryPattern]
  exact .deep [[120]] (List.cons_ne_nil _ _) (.plain hcovers (.deepLast (List.cons_ne_nil _ _)))

end AssetPipeline.Glob
