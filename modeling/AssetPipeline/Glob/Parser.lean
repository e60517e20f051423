import AssetPipeline.Glob.Token

/-! Reading glob patterns. They are read from left to right, and the first error counts. -/

namespace AssetPipeline.Glob

inductive Fault where
  | unclosedClass
  | invalidRange (low high : Char)
  | unopenedBraces
  | unclosedBraces
  | danglingEscape
  deriving DecidableEq, Repr

def Fault.message : Fault → String
  | .unclosedClass => "unclosed character class; missing ']'"
  | .invalidRange low high => "invalid range; '" ++ low.toString ++ "' > '" ++ high.toString ++ "'"
  | .unopenedBraces => "unopened alternate group; missing '\x7b' (maybe escape '\x7d' with '[\x7d]'?)"
  | .unclosedBraces => "unclosed alternate group; missing '\x7d' (maybe escape '\x7b' with '[\x7b]'?)"
  | .danglingEscape => "dangling '\\'"

/-- What was read from a pattern, and the rest of it. -/
structure Read (text : List Char) (α : Type) where
  value : α
  rest : List Char
  notLonger : rest.length ≤ text.length

/-- The ranges of a class up to its closing bracket. A bracket or a hyphen that comes first is an item,
and so is a hyphen that comes last. `ranges` holds what was read before, the latest first; after a
hyphen, `extending` says that the next character is the upper end of the latest range. -/
def classRanges (first extending : Bool) (ranges : List (Char × Char)) :
    (text : List Char) → Except Fault (Read text (List (Char × Char)))
  | [] => .error .unclosedClass
  | c :: text =>
    let continued (read : Except Fault (Read text (List (Char × Char)))) :
        Except Fault (Read (c :: text) (List (Char × Char))) :=
      read.map fun ⟨value, rest, h⟩ => ⟨value, rest, Nat.le_succ_of_le h⟩
    if c = ']' ∧ ¬ first then
      let all := if extending then ('-', '-') :: ranges else ranges
      .ok ⟨all.reverse, text, Nat.le_succ _⟩
    else if c = '-' ∧ ¬ first ∧ ¬ extending then
      continued (classRanges false true ranges text)
    else
      match extending, ranges with
      | true, (low, _) :: earlier =>
        if c < low then .error (.invalidRange low c)
        else continued (classRanges false false ((low, c) :: earlier) text)
      | _, _ => continued (classRanges false false ((c, c) :: ranges) text)

/-- A class, after its opening bracket. -/
def characterClass (text : List Char) : Except Fault (Read text Token) :=
  let classOf (negated : Bool) {text : List Char}
      (read : Except Fault (Read text (List (Char × Char)))) : Except Fault (Read text Token) :=
    read.map fun ⟨ranges, rest, h⟩ => ⟨.oneOf negated ranges, rest, h⟩
  match text with
  | c :: rest =>
    if c = '!' ∨ c = '^' then
      (classOf true (classRanges true false [] rest)).map fun ⟨value, rest, h⟩ =>
        ⟨value, rest, Nat.le_succ_of_le h⟩
    else classOf false (classRanges true false [] (c :: rest))
  | [] => .error .unclosedClass

/-- An open brace: the tokens before it and the branches inside that are complete, each list with the
latest first. -/
structure Group where
  before : List Token
  branches : List (List Token)

/-- What was read of a pattern: the tokens of the branch being read, the latest first, inside the
groups that are open, the innermost first. -/
structure Progress where
  branch : List Token := []
  groups : List Group := []

namespace Progress

def push (p : Progress) (token : Token) : Progress :=
  { p with branch := token :: p.branch }

def openGroup (p : Progress) : Progress :=
  ⟨[], ⟨p.branch, []⟩ :: p.groups⟩

/-- A comma ends a branch; outside braces it is an ordinary character. -/
def comma (p : Progress) : Progress :=
  match p.groups with
  | [] => p.push (.literal ',')
  | g :: groups => ⟨[], { g with branches := p.branch.reverse :: g.branches } :: groups⟩

def closeGroup (p : Progress) : Except Fault Progress :=
  match p.groups with
  | [] => .error .unopenedBraces
  | g :: groups =>
    .ok ⟨.alternates (p.branch.reverse :: g.branches).reverse :: g.before, groups⟩

def finish (p : Progress) : Except Fault (List Token) :=
  match p.groups with
  | [] => .ok p.branch.reverse
  | _ :: _ => .error .unclosedBraces

/-- `**` takes the place of the token before it, normally a separator. After another `**` that covers
as much already, it adds nothing. -/
def replaceLast (p : Progress) (token : Token) : Progress :=
  match p.branch with
  | [] => p
  | .anyBefore :: _ => p
  | .anyBelow :: _ => p
  | _ :: earlier => { p with branch := token :: earlier }

/-- `**` before `next`, where `previous` is the character before it. It spans directories where it
stands between separators or at an end of the pattern or the branch; elsewhere it is two `*`. The
flag says that it takes the separator after it with it. -/
def doubleStar (p : Progress) (previous : Option Char) (next : Option Char) : Progress × Bool :=
  let twoStars := ((p.push .star).push .star, false)
  if p.branch.isEmpty then
    match next with
    | none => (p.push .anyBefore, false)
    | some c => if c = '/' then (p.push .anyBefore, true) else twoStars
  else if previous = some '/' ∨
      (p.groups.length ≠ 0 ∧ (previous = some ',' ∨ previous = some '{')) then
    match next with
    | none => (p.replaceLast .anyBelow, false)
    | some c =>
      if c = '/' then (p.replaceLast .anyBetween, true)
      else if p.groups.length ≠ 0 ∧ (c = ',' ∨ c = '}') then (p.replaceLast .anyBelow, false)
      else twoStars
  else twoStars

end Progress

/-- Reads the rest of a pattern after the character `previous`. -/
def readTokens (previous : Option Char) (p : Progress) (text : List Char) :
    Except Fault (List Token) :=
  match text with
  | [] => p.finish
  | '*' :: '*' :: rest =>
    let (p, takesSeparator) := p.doubleStar previous rest.head?
    if takesSeparator then readTokens (some '/') p rest.tail else readTokens (some '*') p rest
  | '\\' :: c :: rest => readTokens (some c) (p.push (.literal c)) rest
  | c :: rest =>
    match c with
    | '\\' => .error .danglingEscape
    | '?' => readTokens (some c) (p.push .any) rest
    | '*' => readTokens (some c) (p.push .star) rest
    | '[' => do
      let ⟨token, rest', _⟩ ← characterClass rest
      readTokens (some ']') (p.push token) rest'
    | '{' => readTokens (some c) p.openGroup rest
    | '}' => do readTokens (some c) (← p.closeGroup) rest
    | ',' => readTokens (some c) p.comma rest
    | c => readTokens (some c) (p.push (.literal c)) rest
termination_by text.length
decreasing_by
  all_goals simp only [List.length_cons, List.length_tail]; omega

end Glob

/-- A valid pattern. -/
structure Glob where
  tokens : List Glob.Token

namespace Glob

def parse (pattern : String) : Except Fault Glob := do
  return ⟨← readTokens none {} pattern.toList⟩

/-- Whether the pattern stands for `path`, from its first byte to its last. -/
def accepts (g : Glob) (path : String) : Bool :=
  (patternShape g.tokens).accepts (path.toList.flatMap utf8)

end Glob

end AssetPipeline
