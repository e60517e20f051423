import AssetPipeline.Proofs.Files.Listing
import AssetPipeline.Proofs.Glob.Standing

/-! Patterns segment by segment. As long as `**` stands alone between separators, a pattern is a list of
segments that are laid over those of a path. The tokens that are read from it are not cut there: `**`
takes in the separators beside it, and where several stand in a row only one token is left. -/

namespace AssetPipeline.Glob

/-- A part of a segment: `?`, `*`, or a character that stands for itself. -/
inductive Piece where
  | one
  | run
  | char (c : Char)
  deriving DecidableEq

def Piece.written : Piece → Char
  | one => '?'
  | run => '*'
  | char c => c

/-- Pieces cover the bytes of one segment of a path. -/
inductive Covers : List Piece → Bytes → Prop where
  | nil : Covers [] []
  | one (b : UInt8) {pieces : List Piece} {bytes : Bytes} (h : Covers pieces bytes) :
    Covers (.one :: pieces) (b :: bytes)
  | run (u : Bytes) {pieces : List Piece} {bytes : Bytes} (h : Covers pieces bytes) :
    Covers (.run :: pieces) (u ++ bytes)
  | char (c : Char) {pieces : List Piece} {bytes : Bytes} (h : Covers pieces bytes) :
    Covers (.char c :: pieces) (utf8 c ++ bytes)

/-- A segment of a pattern: `**`, or pieces. -/
inductive Segment where
  | deep
  | plain (pieces : List Piece)
  deriving DecidableEq

def Segment.written : Segment → List Char
  | deep => ['*', '*']
  | plain pieces => pieces.map Piece.written

/-- A pattern that is written segment by segment. -/
def patternOf (segments : List Segment) : String :=
  "/".intercalate (segments.map fun segment => String.ofList segment.written)

/-- A character that stands for itself anywhere in a pattern. -/
def IsOrdinary (c : Char) : Prop :=
  c ∉ ['/', '?', '*', '\\', '[', ']', '{', '}', '!', ',']

instance (c : Char) : Decidable (IsOrdinary c) :=
  inferInstanceAs (Decidable (c ∉ _))

/-- Pieces that make up a segment. No two `*` are adjacent, and there is one piece at least. -/
structure IsPlain (pieces : List Piece) : Prop where
  ne_nil : pieces ≠ []
  ordinary : ∀ c, .char c ∈ pieces → IsOrdinary c
  apart : pieces.IsChain fun piece next => ¬ (piece = .run ∧ next = .run)

/-- Segments of a pattern are laid in order over all segments of a path. One that is not `**` covers one
segment, a `**` in last place covers one or more, and any other `**` any number of them. -/
inductive Lays : List Segment → List Bytes → Prop where
  | nil : Lays [] []
  | plain {pieces : List Piece} {segments : List Segment} {bytes : Bytes} {path : List Bytes}
    (h : Covers pieces bytes) (hrest : Lays segments path) :
    Lays (.plain pieces :: segments) (bytes :: path)
  | deep {segments : List Segment} {path : List Bytes} (skipped : List Bytes) (hmore : segments ≠ [])
    (hrest : Lays segments path) : Lays (.deep :: segments) (skipped ++ path)
  | deepLast {path : List Bytes} (hne : path ≠ []) : Lays [.deep] path

/-! ### Reading -/

section Reading

variable {previous : Option Char} {p : Progress} {c : Char} {rest : List Char} {segments : List Segment}
  {pieces : List Piece} {last : Token} {earlier branch : List Token}

def Piece.token : Piece → Token
  | one => .any
  | run => .star
  | char c => .literal c

/-- The token for `**` in the place of the one before it. -/
def widened : (last : Token) → (segments : List Segment) → Token
  | .anyBefore, _ => .anyBefore
  | _, [] => .anyBelow
  | _, _ :: _ => .anyBetween

/-- The tokens of segments after a separator that was read as `last`. -/
def tokensAfter (last : Token) : List Segment → List Token
  | [] => [last]
  | .deep :: segments => tokensAfter (widened last segments) segments
  | .plain pieces :: segments =>
    last :: (pieces.map Piece.token ++
      if segments = [] then [] else tokensAfter (.literal '/') segments)

/-- The tokens of a pattern. -/
def tokensOf : List Segment → List Token
  | .deep :: segments => tokensAfter .anyBefore segments
  | segments => (tokensAfter (.literal '/') segments).tail

theorem readTokens_ordinary (hc : IsOrdinary c) :
    readTokens previous p (c :: rest) = readTokens (some c) (p.push (.literal c)) rest := by
  simp only [IsOrdinary, List.mem_cons, not_or] at hc
  rw [readTokens] <;> simp [hc]

theorem readTokens_slash :
    readTokens previous p ('/' :: rest) = readTokens (some '/') (p.push (.literal '/')) rest := by
  rw [readTokens] <;> simp

theorem readTokens_piece {piece : Piece} (hordinary : ∀ c, piece = .char c → IsOrdinary c)
    (hrest : piece = .run → rest.head? ≠ some '*') :
    readTokens previous p (piece.written :: rest) =
      readTokens (some piece.written) (p.push piece.token) rest := by
  cases piece with
  | one => rw [Piece.written, readTokens, Piece.token]
  | run =>
      rw [Piece.written, readTokens, Piece.token]
      · rintro rest' - rfl
        exact hrest rfl rfl
      · exact fun c rest' h => absurd h (by decide)
  | char c => exact readTokens_ordinary (hordinary c rfl)

theorem exists_readTokens_pieces (hordinary : ∀ c, .char c ∈ pieces → IsOrdinary c)
    (hapart : pieces.IsChain fun piece next => ¬ (piece = .run ∧ next = .run))
    (hrest : rest.head? ≠ some '*') : ∃ previous',
      readTokens previous ⟨branch, []⟩ (pieces.map Piece.written ++ rest) =
        readTokens previous' ⟨(pieces.map Piece.token).reverse ++ branch, []⟩ rest := by
  induction pieces generalizing previous branch with
  | nil => exact ⟨previous, rfl⟩
  | cons piece pieces ih =>
      have hnext : piece = .run → (pieces.map Piece.written ++ rest).head? ≠ some '*' := by
        rintro rfl
        cases pieces with
        | nil => exact hrest
        | cons next pieces =>
            rw [List.isChain_cons_cons] at hapart
            cases next with
            | one => exact fun h => absurd (Option.some.inj h) (by decide)
            | run => exact absurd ⟨rfl, rfl⟩ hapart.1
            | char c =>
                have hc := hordinary c (List.mem_cons_of_mem _ List.mem_cons_self)
                simp only [IsOrdinary, List.mem_cons, not_or] at hc
                simpa [Piece.written] using hc.2.2.1
      have htail := fun c hc => hordinary c (List.mem_cons_of_mem _ hc)
      obtain ⟨previous', hread⟩ := @ih (some piece.written) (piece.token :: branch) htail hapart.of_cons
      refine ⟨previous', ?_⟩
      rw [List.map_cons, List.cons_append, readTokens_piece ?_ hnext]
      · rw [List.map_cons, List.reverse_cons, List.append_assoc]
        exact hread
      · rintro c rfl
        exact hordinary c List.mem_cons_self

/-- Reading a segment that ends the pattern. -/
theorem readTokens_plain (hpieces : IsPlain pieces) :
    readTokens previous ⟨branch, []⟩ (Segment.plain pieces).written =
      .ok (branch.reverse ++ pieces.map Piece.token) := by
  have hrest : ([] : List Char).head? ≠ some '*' := by simp
  obtain ⟨previous', hread⟩ := exists_readTokens_pieces hpieces.ordinary hpieces.apart hrest
  rw [List.append_nil] at hread
  rw [Segment.written, hread, readTokens, Progress.finish]
  simp

/-- Reading a segment with a separator behind it. -/
theorem readTokens_plain_slash (hpieces : IsPlain pieces) :
    readTokens previous ⟨branch, []⟩ ((Segment.plain pieces).written ++ '/' :: rest) =
      readTokens (some '/') ⟨.literal '/' :: ((pieces.map Piece.token).reverse ++ branch), []⟩ rest := by
  have hrest : ('/' :: rest).head? ≠ some '*' := fun h => absurd (Option.some.inj h) (by decide)
  obtain ⟨previous', hread⟩ := exists_readTokens_pieces hpieces.ordinary hpieces.apart hrest
  rw [Segment.written, hread, readTokens_slash, Progress.push]

theorem replaceLast_anyBelow :
    Progress.replaceLast ⟨last :: earlier, []⟩ .anyBelow = ⟨widened last [] :: earlier, []⟩ := by
  cases last <;> rfl

theorem replaceLast_anyBetween (hlast : last ≠ .anyBelow) (hmore : segments ≠ []) :
    Progress.replaceLast ⟨last :: earlier, []⟩ .anyBetween = ⟨widened last segments :: earlier, []⟩ := by
  obtain ⟨next, segments, rfl⟩ := List.exists_cons_of_ne_nil hmore
  cases last <;> first | rfl | exact absurd rfl hlast

theorem widened_ne_anyBelow (hmore : segments ≠ []) : widened last segments ≠ .anyBelow := by
  obtain ⟨next, segments, rfl⟩ := List.exists_cons_of_ne_nil hmore
  cases last <;> exact Token.noConfusion

/-- Segments after the first are written after a slash. -/
theorem intercalate_written_cons (segment : Segment) (hmore : segments ≠ []) :
    ['/'].intercalate ((segment :: segments).map Segment.written) =
      segment.written ++ '/' :: ['/'].intercalate (segments.map Segment.written) := by
  obtain ⟨next, segments, rfl⟩ := List.exists_cons_of_ne_nil hmore
  simp

/-- Reading the segments of a pattern after a separator. -/
theorem readTokens_segments (hne : segments ≠ []) (hplain : ∀ pieces, .plain pieces ∈ segments → IsPlain pieces)
    (hlast : last ≠ .anyBelow) :
    readTokens (some '/') ⟨last :: earlier, []⟩ (['/'].intercalate (segments.map Segment.written)) =
      .ok (earlier.reverse ++ tokensAfter last segments) := by
  induction segments generalizing last earlier with
  | nil => exact absurd rfl hne
  | cons segment segments ih =>
      have hplain' : ∀ pieces, .plain pieces ∈ segments → IsPlain pieces :=
        fun pieces hmem => hplain pieces (List.mem_cons_of_mem _ hmem)
      by_cases hmore : segments = []
      · subst hmore
        rw [List.map_singleton, List.intercalate_singleton]
        cases segment with
        | deep =>
            rw [Segment.written, readTokens]
            simp [Progress.doubleStar, replaceLast_anyBelow, readTokens, Progress.finish, tokensAfter]
        | plain pieces =>
            rw [readTokens_plain (hplain pieces List.mem_cons_self), tokensAfter, if_pos rfl]
            simp
      · rw [intercalate_written_cons segment hmore]
        cases segment with
        | deep =>
            rw [Segment.written, List.cons_append, List.cons_append, List.nil_append, readTokens]
            simp only [Progress.doubleStar, List.isEmpty_cons, List.head?_cons, List.tail_cons,
              replaceLast_anyBetween hlast hmore, Bool.false_eq_true, if_false, true_or, if_true]
            rw [ih hmore hplain' (widened_ne_anyBelow hmore), tokensAfter]
        | plain pieces =>
            rw [readTokens_plain_slash (hplain pieces List.mem_cons_self),
              ih hmore hplain' Token.noConfusion, tokensAfter, if_neg hmore]
            simp

theorem toList_patternOf (segments : List Segment) :
    (patternOf segments).toList = ['/'].intercalate (segments.map Segment.written) := by
  rw [patternOf, String.toList_intercalate, List.map_map]
  congr 1
  exact List.map_congr_left fun segment _ => String.toList_ofList

/-- Reading a pattern from its beginning. -/
theorem parse_patternOf (hne : segments ≠ [])
    (hplain : ∀ pieces, .plain pieces ∈ segments → IsPlain pieces) :
    parse (patternOf segments) = .ok ⟨tokensOf segments⟩ := by
  obtain ⟨segment, segments, rfl⟩ := List.exists_cons_of_ne_nil hne
  have hplain' : ∀ pieces, .plain pieces ∈ segments → IsPlain pieces :=
    fun pieces hmem => hplain pieces (List.mem_cons_of_mem _ hmem)
  suffices hread : readTokens none {} (['/'].intercalate ((segment :: segments).map Segment.written)) =
      .ok (tokensOf (segment :: segments)) by
    rw [parse, toList_patternOf, hread]
    rfl
  by_cases hmore : segments = []
  · subst hmore
    rw [List.map_singleton, List.intercalate_singleton]
    cases segment with
    | deep =>
        rw [Segment.written, readTokens]
        simp [Progress.doubleStar, Progress.push, readTokens, Progress.finish, tokensOf, tokensAfter]
    | plain pieces =>
        rw [readTokens_plain (hplain pieces List.mem_cons_self), tokensOf, tokensAfter, if_pos rfl]
        · simp
        · intro more heq
          cases heq
  · rw [intercalate_written_cons segment hmore]
    cases segment with
    | deep =>
        rw [Segment.written, List.cons_append, List.cons_append, List.nil_append, readTokens]
        simp only [Progress.doubleStar, Progress.push, List.isEmpty_nil, List.head?_cons, List.tail_cons,
          if_true]
        rw [readTokens_segments hmore hplain' Token.noConfusion]
        rfl
    | plain pieces =>
        rw [readTokens_plain_slash (hplain pieces List.mem_cons_self),
          readTokens_segments hmore hplain' Token.noConfusion, tokensOf, tokensAfter, if_neg hmore]
        · simp
        · intro more heq
          cases heq

end Reading

end AssetPipeline.Glob
